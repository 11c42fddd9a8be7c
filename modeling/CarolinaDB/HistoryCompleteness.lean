import CarolinaDB.HistorySoundness

/-!
# Completeness of the history checker

A system that performs each request once, keeps its receipt and answers resolves from it passes
the checker: the branch that made the same choices as the system stays, and no finding is made.
-/
namespace CarolinaDB.Qualify

/-- What the system keeps about a request beside its outcome and result. -/
structure Receipt where
  txnId : Bytes
  receiptDigest : Hash256
  /-- Of what is returned with a rejection. -/
  rejectedDigest : Hash256

namespace Receipt

def final (r : Receipt) (e : Expected) : FinalRef :=
  ⟨e.label, r.txnId, r.receiptDigest, e.resultDigest.getD r.rejectedDigest⟩

def resolution (r : Receipt) (e : Expected) : Resolution :=
  ⟨e.label, r.txnId, some r.receiptDigest, some (e.resultDigest.getD r.rejectedDigest)⟩

end Receipt

/-- What a truthful system can say at an event. A final reply carries the receipt of the request,
kept since it was performed, unless that is evicted or its namespace is retired. A resolve is
answered from the receipt, from what is left of it, or says that there is none. -/
def Truthful (receipt : String → Receipt) (l : Ledger) (x : Execution) (e : HistoryEvent)
    (x' : Execution) : Prop :=
  match e with
  | .invoke _ _ key _ _ => 32 ≤ key.length
  | .finalReply attempt req outcome txnId rd res =>
    l.isForeign attempt = false ∧
      (∃ a, l.accounts[req]? = some a ∧ namespaceOf a.key ∉ l.retired ∧ a.evicted = false) ∧
      ∃ e, x'.done[req]? = some e ∧ ⟨outcome, txnId, rd, res⟩ = (receipt req).final e
  | .resolve req kind txnId rd res =>
    ∀ a, l.accounts[req]? = some a →
      if namespaceOf a.key ∈ l.retired then kind = "IDENTITY_EXPIRED"
      else
        match x.done[req]? with
        | none => kind ≠ "COMMITTED" ∧ kind ≠ "REJECTED"
        | some e =>
          if a.evicted then kind = "EXPIRED" ∧ rd = some (receipt req).receiptDigest
          else ⟨kind, txnId, rd, res⟩ = (receipt req).resolution e
  | _ => True

/-- What the checker asks of clients: a request left unknown is resolved before its first final
reply, to its outcome if it was performed, and none is resolved once its namespace is retired. -/
def Settling (l : Ledger) (x : Execution) : HistoryEvent → Prop
  | .finalReply _ req _ _ _ _ =>
    l.final req = none → x.done[req]? = none ∧
      ∀ a, l.accounts[req]? = some a → a.unknown = true → a.resolved ≠ none
  | .resolve req _ _ _ _ =>
    ∀ a, l.accounts[req]? = some a → a.final ≠ none → namespaceOf a.key ∉ l.retired
  | _ => True

/-- The last resolution gives the outcome, or the tombstone of an evicted receipt. -/
def Account.Answers (a : Account) (f : FinalRef) (r : Resolution) : Prop :=
  r.kind = f.outcome ∨
    r.kind = "EXPIRED" ∧ a.evicted = true ∧ r.receiptDigest = some f.receiptDigest

/-- The history and the execution agree on a request: what is final was performed and is told as
its receipt, and what was performed and is not final was left unknown. -/
structure KeptAt (receipt : String → Receipt) (l : Ledger) (x : Execution) (req : String)
    (a : Account) : Prop where
  key : 32 ≤ a.key.length
  final : ∀ f, a.final = some f → ∃ e, x.done[req]? = some e ∧ f = (receipt req).final e
  unknown : a.final = none → x.done[req]? ≠ none → a.unknown = true
  confirmed : req ∈ l.confirmed → ∃ f r, a.final = some f ∧ a.resolved = some r ∧ a.Answers f r
  performed : ∀ v, x.done[req]? = some (.committed v) → v = a.op.result

structure Kept (receipt : String → Receipt) (l : Ledger) (x : Execution) : Prop where
  requests : ∀ req a, l.accounts[req]? = some a → KeptAt receipt l x req a
  invoked : ∀ req : String, l.accounts[req]? = none → x.done[req]? = none ∧ req ∉ l.confirmed
  invariants : x.model.invariants = .ok ()

section Kept

variable {receipt : String → Receipt} {l : Ledger} {x x' : Execution} {e : HistoryEvent}
  {req : String} {a : Account}

lemma invariants_apply {m : InventoryModel} (h : m.invariants = .ok ()) (op : W1Op) :
    (m.apply op).2.invariants = .ok () := by
  obtain ⟨reason, -, ha⟩ | ⟨next, -, ha, -, hinv⟩ := m.apply_cases op
  · rw [ha]
    exact h
  · rw [ha]
    exact hinv

lemma result_of_apply {m : InventoryModel} {op : W1Op} {v : Lang.Value}
    (h : (m.apply op).1 = .committed v) : v = op.result := by
  obtain ⟨reason, -, ha⟩ | ⟨next, -, ha, -⟩ := m.apply_cases op
  · rw [ha] at h
    cases h
  · rw [ha] at h
    cases h
    rfl

/-- Performing the request whose reply is an event. -/
lemma Move.cases_on (h : Move l x e x') : x' = x ∨ ∃ req a, Ledger.subject e = some req ∧
    l.accounts[req]? = some a ∧ x.done[req]? = none ∧ x' = x.perform req a.op := by
  cases h with
  | idle => exact .inl rfl
  | atFinal _ ha hdone => exact .inr ⟨_, _, rfl, ha, hdone, rfl⟩
  | atUnknown _ ha hdone => exact .inr ⟨_, _, rfl, ha, hdone, rfl⟩

lemma KeptAt.of_ne (h : KeptAt receipt l x req a) (hmove : Move l x e x')
    (hne : Ledger.subject e ≠ some req) : KeptAt receipt (l.step e) x' req a where
  key := h.key
  final f hf := by
    rw [hmove.done_of_ne hne]
    exact h.final f hf
  unknown hf hdone := by
    rw [hmove.done_of_ne hne] at hdone
    exact h.unknown hf hdone
  confirmed hc := by
    obtain hc | ⟨kind, txnId, rd, res, rfl, -⟩ := Ledger.confirmed_step hc
    · exact h.confirmed hc
    · exact absurd rfl hne
  performed v hv := by
    rw [hmove.done_of_ne hne] at hv
    exact h.performed v hv

/-- An account that changes in nothing the execution is about. -/
lemma KeptAt.same (h : KeptAt receipt l x req a) {l' : Ledger} {a' : Account}
    (hconfirmed : req ∈ l'.confirmed → req ∈ l.confirmed) (hop : a'.op = a.op) (hkey : a'.key = a.key)
    (hunknown : a.unknown = true → a'.unknown = true) (hfinal : a'.final = a.final)
    (hresolved : a'.resolved = a.resolved) (hevicted : a.evicted = true → a'.evicted = true) :
    KeptAt receipt l' x req a' where
  key := by
    rw [hkey]
    exact h.key
  final := by
    rw [hfinal]
    exact h.final
  unknown hf hdone := hunknown (h.unknown (hfinal ▸ hf) hdone)
  confirmed hc := by
    obtain ⟨f, r, hf, hr, hanswers⟩ := h.confirmed (hconfirmed hc)
    refine ⟨f, r, hfinal.trans hf, hresolved.trans hr, hanswers.imp_right fun hexpired => ?_⟩
    exact ⟨hexpired.1, hevicted hexpired.2.1, hexpired.2.2⟩
  performed := by
    rw [hop]
    exact h.performed

lemma confirmed_of_step (he : ∀ kind txnId rd res, e ≠ .resolve req kind txnId rd res)
    (h : req ∈ (l.step e).confirmed) : req ∈ l.confirmed := by
  obtain h | ⟨kind, txnId, rd, res, rfl, -⟩ := Ledger.confirmed_step h
  · exact h
  · exact absurd rfl (he kind txnId rd res)

/-- What is performed at a reply is one of the receipts kept. -/
lemma KeptAt.final_of_step (h : KeptAt receipt l x req a) (ha : l.accounts[req]? = some a)
    (hmove : Move l x e x') {f : FinalRef} (hf : a.final = some f) :
    x'.done[req]? = x.done[req]? := by
  obtain ⟨exp, hdone, -⟩ := h.final f hf
  obtain rfl | ⟨req', a', -, -, hnone, rfl⟩ := hmove.cases_on
  · rfl
  · refine FiniteMap.get_insert_of_ne ?_
    rintro rfl
    rw [hdone] at hnone
    cases hnone

lemma KeptAt.final_none (h : KeptAt receipt l x req a) (hdone : x.done[req]? = none) :
    a.final = none := by
  cases hf : a.final with
  | none => rfl
  | some f =>
    obtain ⟨e, he, -⟩ := h.final f hf
    rw [hdone] at he
    cases he

lemma KeptAt.performed_step (h : KeptAt receipt l x req a) (ha : l.accounts[req]? = some a)
    (hmove : Move l x e x') {v : Lang.Value} (hv : x'.done[req]? = some (.committed v)) :
    v = a.op.result := by
  obtain rfl | ⟨req', a', -, ha', -, rfl⟩ := hmove.cases_on
  · exact h.performed v hv
  · rw [Execution.perform, FiniteMap.get_insert] at hv
    split_ifs at hv with heq
    · subst heq
      rw [ha] at ha'
      cases ha'
      exact result_of_apply (Option.some.inj hv)
    · exact h.performed v hv

lemma KeptAt.finalReply {attempt : ℕ} {outcome : String} {txnId : Bytes} {rd res : Hash256}
    (h : KeptAt receipt l x req a) (ha : l.accounts[req]? = some a)
    (hmove : Move l x (.finalReply attempt req outcome txnId rd res) x')
    (htruth : Truthful receipt l x (.finalReply attempt req outcome txnId rd res) x') :
    KeptAt receipt (l.step (.finalReply attempt req outcome txnId rd res)) x' req
      (a.finalReply ⟨outcome, txnId, rd, res⟩) where
  key := h.key
  final f hf := by
    cases hold : a.final with
    | some g =>
      rw [h.final_of_step ha hmove hold]
      rw [Account.finalReply, hold] at hf
      cases hf
      exact h.final g hold
    | none =>
      rw [Account.finalReply, hold] at hf
      cases hf
      exact htruth.2.2
  unknown hf := by cases hf
  confirmed hc := by
    obtain ⟨f, r, hf, hr, hanswers⟩ := h.confirmed (confirmed_of_step (by rintro _ _ _ _ ⟨⟩) hc)
    refine ⟨f, r, ?_, hr, hanswers⟩
    rw [Account.finalReply, hf]
    rfl
  performed v hv := h.performed_step ha hmove hv

lemma KeptAt.unknownReply {attempt : ℕ} (h : KeptAt receipt l x req a)
    (ha : l.accounts[req]? = some a) (hmove : Move l x (.unknownReply attempt req) x') :
    KeptAt receipt (l.step (.unknownReply attempt req)) x' req a.unknownReply := by
  have hop : a.unknownReply.op = a.op ∧ a.unknownReply.key = a.key ∧
      a.unknownReply.final = a.final ∧ a.unknownReply.resolved = a.resolved ∧
        a.unknownReply.evicted = a.evicted ∧ (a.final = none → a.unknownReply.unknown = true) := by
    unfold Account.unknownReply
    split_ifs with hsome
    · refine ⟨rfl, rfl, rfl, rfl, rfl, fun hnone => ?_⟩
      rw [hnone] at hsome
      cases hsome
    · exact ⟨rfl, rfl, rfl, rfl, rfl, fun _ => rfl⟩
  obtain ⟨hop, hkey, hfinal, hresolved, hevicted, hunknown⟩ := hop
  refine ⟨by rw [hkey]; exact h.key, fun f hf => ?_, fun hf _ => ?_, fun hc => ?_, fun v hv => ?_⟩
  · rw [hfinal] at hf
    rw [h.final_of_step ha hmove hf]
    exact h.final f hf
  · rw [hfinal] at hf
    exact hunknown hf
  · obtain ⟨f, r, hf, hr, hanswers⟩ := h.confirmed (confirmed_of_step (by rintro _ _ _ _ ⟨⟩) hc)
    rw [hfinal, hresolved]
    refine ⟨f, r, hf, hr, ?_⟩
    unfold Account.Answers
    rw [hevicted]
    exact hanswers
  · rw [hop]
    exact h.performed_step ha hmove hv

lemma KeptAt.resolve {kind : String} {txnId : Bytes} {rd res : Option Hash256}
    (h : KeptAt receipt l x req a) (ha : l.accounts[req]? = some a)
    (htruth : Truthful receipt l x (.resolve req kind txnId rd res) x')
    (hsettle : Settling l x (.resolve req kind txnId rd res)) :
    KeptAt receipt (l.step (.resolve req kind txnId rd res)) x req
      (a.resolve ⟨kind, txnId, rd, res⟩) := by
  have hanswer := htruth a ha
  -- A request that is final after the resolution was performed, and is answered from its receipt.
  have hfinal (f : FinalRef) (hf : (a.resolve ⟨kind, txnId, rd, res⟩).final = some f) :
      (∃ e, x.done[req]? = some e ∧ f = (receipt req).final e) ∧
        (a.resolve ⟨kind, txnId, rd, res⟩).Answers f ⟨kind, txnId, rd, res⟩ := by
    simp only [Account.resolve] at hf
    split_ifs at hf with hcond
    · cases hf
      obtain ⟨hkind, hnone, hunknown⟩ := hcond
      by_cases hretired : namespaceOf a.key ∈ l.retired
      · rw [if_pos hretired] at hanswer
        simp [hanswer] at hkind
      rw [if_neg hretired] at hanswer
      cases hdone : x.done[req]? with
      | none =>
        rw [hdone] at hanswer
        exact absurd hkind (not_or.mpr hanswer)
      | some e =>
        rw [hdone] at hanswer
        dsimp only at hanswer
        split_ifs at hanswer with hevicted
        · simp [hanswer.1] at hkind
        · rw [hanswer]
          exact ⟨⟨e, rfl, rfl⟩, .inl rfl⟩
    · obtain ⟨e, hdone, rfl⟩ := h.final f hf
      refine ⟨⟨e, hdone, rfl⟩, ?_⟩
      have hopen : namespaceOf a.key ∉ l.retired := hsettle a ha (by rw [hf]; simp)
      rw [if_neg hopen, hdone] at hanswer
      dsimp only at hanswer
      split_ifs at hanswer with hevicted
      · exact .inr ⟨hanswer.1, hevicted, hanswer.2⟩
      · exact .inl (congrArg Resolution.kind hanswer)
  refine ⟨h.key, fun f hf => (hfinal f hf).1, fun hf hdone => ?_, fun hc => ?_, h.performed⟩
  · apply h.unknown ?_ hdone
    simp only [Account.resolve] at hf
    split_ifs at hf
    exact hf
  · have hsome : (a.resolve ⟨kind, txnId, rd, res⟩).final.isSome = true := by
      obtain hc | ⟨_, _, _, _, heq, hsome⟩ := Ledger.confirmed_step hc
      · obtain ⟨f, r, hf, -⟩ := h.confirmed hc
        simp only [Account.resolve]
        split_ifs
        · rfl
        · rw [hf]
          rfl
      · cases heq
        have hadjust : ((l.adjust req (Account.resolve ⟨kind, txnId, rd, res⟩)).final req).isSome
            = true := hsome
        rw [Ledger.final_adjust, if_pos rfl, ha] at hadjust
        exact hadjust
    obtain ⟨f, hf⟩ := Option.isSome_iff_exists.mp hsome
    exact ⟨f, _, hf, rfl, (hfinal f hf).2⟩

/-- One event of a truthful system. -/
lemma Kept.step (h : Kept receipt l x) (hmove : Move l x e x') (htruth : Truthful receipt l x e x')
    (hsettle : Settling l x e) : Kept receipt (l.step e) x' := by
  refine ⟨fun req a' ha' => ?_, fun req hnone => ?_, ?_⟩
  · by_cases hsub : Ledger.subject e = some req
    · cases e with
      | invoke attempt req' key hash op =>
        cases hsub
        cases hmove
        simp only [Ledger.step, Ledger.invoke] at ha'
        split_ifs at ha' with hsome
        · exact (h.requests req a' ha').same id rfl rfl id rfl rfl id
        · rw [FiniteMap.get_insert_self] at ha'
          cases ha'
          obtain ⟨hdone, hconfirmed⟩ := h.invoked req (Option.not_isSome_iff_eq_none.mp hsome)
          refine ⟨htruth, by simp, fun _ hne => absurd hdone hne, fun hc => absurd hc hconfirmed,
            fun v hv => ?_⟩
          rw [hdone] at hv
          cases hv
      | finalReply attempt req' outcome txnId rd res =>
        cases hsub
        obtain ⟨hforeign, ⟨a, ha, -⟩, -⟩ := id htruth
        simp only [Ledger.step, hforeign, Bool.false_eq_true, if_false] at ha'
        rw [Ledger.accounts_adjust, if_pos rfl, ha] at ha'
        cases ha'
        exact (h.requests req a ha).finalReply ha hmove htruth
      | unknownReply attempt req' =>
        cases hsub
        by_cases hforeign : l.isForeign attempt = true
        · have hstep : l.step (.unknownReply attempt req) = l := by
            simp only [Ledger.step, Ledger.unknownReply, hforeign, if_true]
          rw [hstep] at ha' ⊢
          cases hmove with
          | idle => exact h.requests req a' ha'
          | atUnknown hdomestic => simp [hforeign] at hdomestic
        · simp only [Ledger.step, Ledger.unknownReply, hforeign, Bool.false_eq_true, if_false] at ha'
          obtain ⟨a, ha, rfl⟩ := Ledger.of_accounts_adjust ha'
          exact (h.requests req a ha).unknownReply ha hmove
      | resolve req' kind txnId rd res =>
        cases hsub
        cases hmove
        obtain ⟨a, ha, rfl⟩ := Ledger.of_accounts_adjust ha'
        exact (h.requests req a ha).resolve ha htruth hsettle
      | decision req' txnId outcome ref =>
        cases hsub
        cases hmove
        obtain ⟨a, ha, rfl⟩ := Ledger.of_accounts_adjust ha'
        exact (h.requests req a ha).same (confirmed_of_step (by rintro _ _ _ _ ⟨⟩))
          rfl rfl id rfl rfl id
      | resultEvicted req' =>
        cases hsub
        cases hmove
        obtain ⟨a, ha, rfl⟩ := Ledger.of_accounts_adjust ha'
        exact (h.requests req a ha).same (confirmed_of_step (by rintro _ _ _ _ ⟨⟩))
          rfl rfl id rfl rfl fun _ => rfl
      | _ => cases hsub
    · rw [Ledger.accounts_step_of_ne hsub] at ha'
      exact (h.requests req a' ha').of_ne hmove hsub
  · have hbefore : l.accounts[req]? = none := by
      cases ha : l.accounts[req]? with
      | none => rfl
      | some a =>
        obtain ⟨a', ha', -⟩ := Ledger.accounts_step ha e
        rw [hnone] at ha'
        cases ha'
    obtain ⟨hdone, hconfirmed⟩ := h.invoked req hbefore
    refine ⟨?_, fun hc => ?_⟩
    · obtain rfl | ⟨req', a, -, ha, -, rfl⟩ := hmove.cases_on
      · exact hdone
      · rw [Execution.perform, FiniteMap.get_insert_of_ne]
        · exact hdone
        · rintro rfl
          rw [hbefore] at ha
          cases ha
    · obtain hc | ⟨kind, txnId, rd, res, -, hsome⟩ := Ledger.confirmed_step hc
      · exact hconfirmed hc
      · rw [Ledger.final, hnone] at hsome
        cases hsome
  · obtain rfl | ⟨req', a, -, -, -, rfl⟩ := hmove.cases_on
    · exact h.invariants
    · exact invariants_apply h.invariants a.op

end Kept

/-- The branch made the choices of the execution. -/
def Branch.Follows (b : Branch) (l : Ledger) (x : Execution) : Prop :=
  b.model = x.model ∧ ∀ req, l.final req = none →
    (req ∈ b.assumedCommitted ↔ ∃ v, x.done[req]? = some (.committed v))

/-- Nothing was found, one branch follows the execution, and all expect the same results. -/
structure Followed (c : Checker) (l : Ledger) (x : Execution) : Prop where
  clean : c.fails = []
  branch : ∃ b ∈ c.branches, b.Follows l x
  results : ∀ b ∈ c.branches, ∀ (req : String) (r : Option Hash256),
    b.assumedResults[req]? = some r →
      ∃ op, l.op req = some op ∧ r = (Expected.committed op.result).resultDigest

section Followed

variable {receipt : String → Receipt} {c c' : Checker} {l l' : Ledger} {x x' : Execution}
  {initial : InventoryModel} {lastRestart : ℕ} {req : String} {b : Branch} {op : W1Op}

lemma Branch.Follows.of_final (h : b.Follows l x) (hfinal : ∀ req, l'.final req = none → l.final req = none) :
    b.Follows l' x :=
  ⟨h.1, fun req hnone => h.2 req (hfinal req hnone)⟩

/-- The judgement of a first reply that carries the contract's outcome and result. -/
lemma judge_fst {step : ℕ} {f : FinalRef} (houtcome : f.outcome = "COMMITTED" ∨ f.outcome = "REJECTED")
    (hresult : f.outcome = "COMMITTED" →
      (Expected.committed op.result).resultDigest = some f.resultDigest) :
    (b.judge step req op f).1 = [] := by
  unfold Branch.judge
  obtain ⟨reason, he, -⟩ | ⟨next, he, -, -, hinv⟩ := b.model.apply_cases op
  · rw [he]
    obtain h | h := houtcome <;> simp [h]
  · rw [he]
    obtain h | h := houtcome
    · simp [h, hinv, hresult h]
    · simp [h]

lemma judge_snd {step : ℕ} {f : FinalRef} (hlabel : (b.model.apply op).1.label = f.outcome) :
    (b.judge step req op f).2 = some { b with model := (b.model.apply op).2 } := by
  unfold Branch.judge
  obtain ⟨reason, he, ha⟩ | ⟨next, he, ha, -⟩ := b.model.apply_cases op
  · rw [ha] at hlabel ⊢
    rw [he]
    simp [← hlabel, Expected.label]
  · rw [ha] at hlabel ⊢
    rw [he]
    simp [← hlabel, Expected.label]

/-- What the branches of a first reply come from. -/
lemma assumedResults_judge {step : ℕ} {f : FinalRef} {b' : Branch}
    (h : (b.judge step req op f).2 = some b') : b'.assumedResults = b.assumedResults := by
  unfold Branch.judge at h
  split at h <;> split_ifs at h <;> cases h <;> rfl

lemma firstReply_followed {step : ℕ} {info : ReqInfo} {f : FinalRef}
    (hjudge : ∀ b ∈ c.branches, (b.judge step req info.op f).1 = [])
    (hbranch : ∃ b ∈ c.branches, ((b.judge step req info.op f).2).isSome = true) :
    c.firstReply step req info f = .ok ({ c with branches := c.branches.filterMap fun b : Branch =>
      (b.judge step req info.op f).2 }.put req { info with finalReply := some f }) := by
  unfold Checker.firstReply
  have hfindings : (c.branches.map (Branch.judge step req info.op f)).flatMap (·.1) = [] := by
    rw [List.flatMap_map, List.flatMap_eq_nil_iff]
    exact hjudge
  have hnext : (c.branches.map (Branch.judge step req info.op f)).filterMap (·.2) =
      c.branches.filterMap fun b => (b.judge step req info.op f).2 := List.filterMap_map
  have hne : (c.branches.filterMap fun b => (b.judge step req info.op f).2).isEmpty = false := by
    obtain ⟨b, hb, hsome⟩ := hbranch
    obtain ⟨b', hb'⟩ := Option.isSome_iff_exists.mp hsome
    rw [List.isEmpty_eq_false_iff]
    exact List.ne_nil_of_mem (List.mem_filterMap.mpr ⟨b, hb, hb'⟩)
  dsimp only
  rw [hfindings, hnext, hne]
  simp [Checker.fail]

lemma finalReply_retry {step attempt : ℕ} {info : ReqInfo} {f : FinalRef}
    (hmismatched : c.mismatched attempt = false) (hinfo : c.reqs[req]? = some info)
    (hkey : 32 ≤ info.requestKey.length) (hopen : namespaceOf info.requestKey ∉ c.retired)
    (hevicted : info.evicted = false) (hfinal : info.finalReply = some f) :
    c.finalReply step attempt req f = .ok c := by
  simp [Checker.finalReply, Checker.failIf, hmismatched, hinfo, not_lt.mpr hkey, hopen, hevicted,
    hfinal]

lemma finalReply_first {step attempt : ℕ} {info : ReqInfo} {f : FinalRef}
    (hmismatched : c.mismatched attempt = false) (hinfo : c.reqs[req]? = some info)
    (hkey : 32 ≤ info.requestKey.length) (hopen : namespaceOf info.requestKey ∉ c.retired)
    (hevicted : info.evicted = false) (hfinal : info.finalReply = none)
    (hresolved : info.unknownAttempts ≠ [] → info.resolved ≠ none) :
    c.finalReply step attempt req f = c.firstReply step req info f := by
  have hcond : ¬ (info.unknownAttempts ≠ [] ∧ info.resolved = none) :=
    fun hcond => hresolved hcond.1 hcond.2
  simp only [Checker.finalReply, Checker.failIf, hmismatched, Bool.false_eq_true, if_false, hinfo,
    not_lt.mpr hkey, hopen, hevicted, hfinal, hcond]

/-- A request that is told final was not performed at this event. -/
lemma Move.eq_of_done {e : HistoryEvent} (h : Move l x e x') (hsub : Ledger.subject e = some req)
    (hdone : x.done[req]? ≠ none) : x' = x := by
  obtain rfl | ⟨req', a, hsub', -, hnone, -⟩ := h.cases_on
  · rfl
  · rw [hsub] at hsub'
    cases hsub'
    exact absurd hnone hdone

lemma Followed.of_ledger (h : Followed c l x)
    (hfinal : ∀ req, l'.final req = none → l.final req = none)
    (hop : ∀ req op, l.op req = some op → l'.op req = some op) : Followed c l' x where
  clean := h.clean
  branch := by
    obtain ⟨b, hb, hfollows⟩ := h.branch
    exact ⟨b, hb, hfollows.of_final hfinal⟩
  results b hb req r hr := by
    obtain ⟨op, ho, hresult⟩ := h.results b hb req r hr
    exact ⟨op, hop req op ho, hresult⟩

lemma Followed.finalReply {step attempt : ℕ} {outcome : String} {txnId : Bytes} {rd res : Hash256}
    (h : Followed c l x) (hag : Agrees c l) (hkept : Kept receipt l x)
    (hmove : Move l x (.finalReply attempt req outcome txnId rd res) x')
    (htruth : Truthful receipt l x (.finalReply attempt req outcome txnId rd res) x')
    (hsettle : Settling l x (.finalReply attempt req outcome txnId rd res)) :
    ∃ c', c.finalReply step attempt req ⟨outcome, txnId, rd, res⟩ = .ok c' ∧
      Followed c' (l.step (.finalReply attempt req outcome txnId rd res)) x' := by
  obtain ⟨hforeign, ⟨a, ha, hopen, hevicted⟩, e, hdone, hf⟩ := htruth
  have hkeptAt := hkept.requests req a ha
  obtain ⟨info, hinfo, rfl⟩ : ∃ info, c.reqs[req]? = some info ∧ info.account = a := by
    rw [hag.accounts] at ha
    exact Option.map_eq_some_iff.mp ha
  rw [hag.isForeign] at hforeign
  rw [hag.retired] at hopen
  have hop (req' : String) (op : W1Op) (ho : l.op req' = some op) :
      (l.step (.finalReply attempt req outcome txnId rd res)).op req' = some op :=
    Ledger.op_step ho _
  have hstill (req' : String)
      (hnone : (l.step (.finalReply attempt req outcome txnId rd res)).final req' = none) :
      req' ≠ req ∧ l.final req' = none := by
    simp only [Ledger.step, hag.isForeign, hforeign, Bool.false_eq_true, if_false] at hnone
    rw [Ledger.final_adjust] at hnone
    split_ifs at hnone with heq
    · subst heq
      rw [ha] at hnone
      cases hnone
    · exact ⟨Ne.symm heq, hnone⟩
  cases hreply : info.finalReply with
  | some old =>
    -- A retry: the receipt kept is the one told before.
    obtain ⟨e', hdone', hold⟩ := hkeptAt.final old hreply
    obtain rfl := hmove.eq_of_done rfl (by rw [hdone']; simp)
    rw [hdone'] at hdone
    cases hdone
    rw [hf, ← hold]
    exact ⟨c, finalReply_retry hforeign hinfo hkeptAt.key hopen hevicted hreply,
      h.of_ledger (fun req' hnone => (hstill req' hnone).2) hop⟩
  | none =>
    have hfinal : l.final req = none := by
      rw [Ledger.final, ha]
      exact hreply
    obtain ⟨hnotdone, hresolved⟩ := hsettle hfinal
    have hresolved' : info.unknownAttempts ≠ [] → info.resolved ≠ none := fun hne =>
      hresolved _ ha (by simpa [ReqInfo.account] using hne)
    rw [finalReply_first hforeign hinfo hkeptAt.key hopen hevicted hreply hresolved']
    obtain rfl | ⟨req', a', hsub, ha', -, rfl⟩ := hmove.cases_on
    · rw [hnotdone] at hdone
      cases hdone
    cases hsub
    rw [ha] at ha'
    cases ha'
    rw [Execution.perform, FiniteMap.get_insert_self] at hdone
    cases hdone
    obtain ⟨b, hb, hmodel, hassumed⟩ := h.branch
    have hlabel : (b.model.apply info.op).1.label = outcome := by
      rw [hmodel]
      exact (congrArg FinalRef.outcome hf).symm
    have hjudge (b : Branch) : (b.judge step req info.op ⟨outcome, txnId, rd, res⟩).1 = [] := by
      rw [hf]
      obtain ⟨reason, -, happly⟩ | ⟨next, -, happly, -⟩ := x.model.apply_cases info.op
      · apply judge_fst
        · rw [ReqInfo.account, happly]
          exact .inr rfl
        · rw [ReqInfo.account, happly]
          intro hlabel'
          simp [Receipt.final, Expected.label] at hlabel'
      · apply judge_fst
        · rw [ReqInfo.account, happly]
          exact .inl rfl
        · rw [ReqInfo.account, happly]
          exact fun _ => rfl
    have hkeeps : (b.judge step req info.op ⟨outcome, txnId, rd, res⟩).2 =
        some { b with model := (b.model.apply info.op).2 } := judge_snd hlabel
    refine ⟨_, firstReply_followed (fun b _ => hjudge b) ⟨b, hb, by rw [hkeeps]; rfl⟩,
      h.clean, ?_, fun b' hb' req' r hr => ?_⟩
    · refine ⟨_, List.mem_filterMap.mpr ⟨b, hb, hkeeps⟩, ?_, fun req' hnone => ?_⟩
      · rw [hmodel]
        rfl
      · obtain ⟨hne, hnone'⟩ := hstill req' hnone
        rw [Execution.perform, FiniteMap.get_insert_of_ne (Ne.symm hne)]
        exact hassumed req' hnone'
    · obtain ⟨b₁, hb₁, hb₁'⟩ := List.mem_filterMap.mp hb'
      rw [assumedResults_judge hb₁'] at hr
      obtain ⟨op, ho, hresult⟩ := h.results b₁ hb₁ req' r hr
      exact ⟨op, hop req' op ho, hresult⟩

/-- Of the branches of an unknown reply, one follows the execution on. -/
lemma Branch.Follows.unknownReply {attempt : ℕ} {a : Account} (h : b.Follows l x)
    (hmove : Move l x (.unknownReply attempt req) x') (ha : l.accounts[req]? = some a) :
    ∃ b' ∈ b.fork req a.op, b'.Follows l x' := by
  cases hmove with
  | idle => exact ⟨b, mem_fork.mpr (.inl rfl), h⟩
  | atUnknown _ ha' hnone =>
    rw [ha] at ha'
    cases ha'
    obtain ⟨hmodel, hassumed⟩ := h
    have hother {req' : String} (hne : req ≠ req') :
        (x.perform req a.op).done[req']? = x.done[req']? := FiniteMap.get_insert_of_ne hne
    have hthis : (x.perform req a.op).done[req]? = some (x.model.apply a.op).1 :=
      FiniteMap.get_insert_self
    obtain ⟨reason, heval, happly⟩ | ⟨next, heval, happly, -⟩ := x.model.apply_cases a.op
    · refine ⟨b, mem_fork.mpr (.inl rfl), ?_, fun req' hfinal => ?_⟩
      · rw [hmodel, Execution.perform, happly]
      · by_cases heq : req = req'
        · subst heq
          rw [hthis, happly, hassumed req hfinal, hnone]
          simp
        · rw [hother heq]
          exact hassumed req' hfinal
    · refine ⟨_, mem_fork.mpr (.inr ⟨next, by rw [hmodel]; exact heval, rfl⟩), ?_, fun req' hfinal => ?_⟩
      · rw [Execution.perform, happly]
      · by_cases heq : req = req'
        · subst heq
          rw [hthis, happly]
          simp
        · rw [hother heq, Finset.mem_insert, or_iff_right (Ne.symm heq)]
          exact hassumed req' hfinal

lemma Followed.unknownReply {attempt : ℕ} (h : Followed c l x) (hag : Agrees c l)
    (hkept : Kept receipt l x) (hmove : Move l x (.unknownReply attempt req) x') :
    Followed (c.unknownReply attempt req) (l.step (.unknownReply attempt req)) x' := by
  have hfinal (req' : String) : (l.step (.unknownReply attempt req)).final req' = l.final req' :=
    Ledger.final_unknownReply
  have hop (req' : String) (op : W1Op) (ho : l.op req' = some op) :
      (l.step (.unknownReply attempt req)).op req' = some op := Ledger.op_step ho _
  have hstay : Followed c (l.step (.unknownReply attempt req)) x :=
    h.of_ledger (fun req' hnone => by rw [← hfinal]; exact hnone) hop
  unfold Checker.unknownReply
  cases hinfo : c.reqs[req]? with
  | none =>
    cases hmove with
    | idle => exact hstay
    | atUnknown _ ha _ =>
      rw [hag.account_none hinfo] at ha
      cases ha
  | some info =>
    have ha := hag.account_of hinfo
    dsimp only
    split_ifs with hskip
    · have hsame : x' = x := by
        cases hmove with
        | idle => rfl
        | atUnknown hforeign ha' hnone =>
          rw [ha] at ha'
          cases ha'
          obtain hsome | hmismatched := hskip
          · obtain ⟨f, hf⟩ := Option.isSome_iff_exists.mp hsome
            obtain ⟨e, hdone, -⟩ := (hkept.requests req _ ha).final f hf
            rw [hdone] at hnone
            cases hnone
          · rw [hag.isForeign, hmismatched] at hforeign
            cases hforeign
      rw [hsame]
      exact hstay
    · refine ⟨h.clean, ?_, fun b' hb' req' r hr => ?_⟩
      · obtain ⟨b, hb, hfollows⟩ := h.branch
        obtain ⟨b', hb', hfollows'⟩ := hfollows.unknownReply hmove ha
        exact ⟨b', List.mem_flatMap.mpr ⟨b, hb, hb'⟩,
          hfollows'.of_final fun req' hnone => by rw [← hfinal]; exact hnone⟩
      · obtain ⟨b, hb, hfork⟩ := List.mem_flatMap.mp hb'
        obtain rfl | ⟨next, -, rfl⟩ := mem_fork.mp hfork
        · exact hstay.results b' hb req' r hr
        · rw [FiniteMap.get_insert] at hr
          split_ifs at hr with heq
          · subst heq
            cases hr
            refine ⟨info.op, hop req _ ?_, rfl⟩
            rw [Ledger.op, ha]
            rfl
          · exact hstay.results b hb req' r hr

section Resolve

variable {kind : String} {txnId : Bytes} {rd res : Option Hash256} {a : Account}

/-- The answers a truthful system gives. -/
lemma Truthful.answers (h : Truthful receipt l x (.resolve req kind txnId rd res) x')
    (ha : l.accounts[req]? = some a) :
    (namespaceOf a.key ∈ l.retired ∧ kind = "IDENTITY_EXPIRED") ∨
    (x.done[req]? = none ∧ kind ≠ "COMMITTED" ∧ kind ≠ "REJECTED") ∨ ∃ e, x.done[req]? = some e ∧
      (kind = "EXPIRED" ∨ (⟨kind, txnId, rd, res⟩ : Resolution) = (receipt req).resolution e) := by
  have hanswer := h a ha
  by_cases hretired : namespaceOf a.key ∈ l.retired
  · rw [if_pos hretired] at hanswer
    exact .inl ⟨hretired, hanswer⟩
  rw [if_neg hretired] at hanswer
  cases hdone : x.done[req]? with
  | none =>
    rw [hdone] at hanswer
    exact .inr (.inl ⟨rfl, hanswer⟩)
  | some e =>
    rw [hdone] at hanswer
    dsimp only at hanswer
    split_ifs at hanswer
    · exact .inr (.inr ⟨e, rfl, .inl hanswer.1⟩)
    · exact .inr (.inr ⟨e, rfl, .inr hanswer⟩)

/-- An outcome is told from the receipt. -/
lemma Truthful.resolution (h : Truthful receipt l x (.resolve req kind txnId rd res) x')
    (ha : l.accounts[req]? = some a) (hkind : kind = "COMMITTED" ∨ kind = "REJECTED") :
    ∃ e, x.done[req]? = some e ∧
      (⟨kind, txnId, rd, res⟩ : Resolution) = (receipt req).resolution e := by
  obtain ⟨-, hk⟩ | ⟨-, hc, hr⟩ | ⟨e, hdone, hk | heq⟩ := h.answers ha
  · simp [hk] at hkind
  · exact absurd hkind (not_or.mpr ⟨hc, hr⟩)
  · simp [hk] at hkind
  · exact ⟨e, hdone, heq⟩

/-- What was performed is not said to be absent or pending. -/
lemma Truthful.absent (h : Truthful receipt l x (.resolve req kind txnId rd res) x')
    (ha : l.accounts[req]? = some a) (hkind : kind = "ABSENT" ∨ kind = "PENDING") :
    x.done[req]? = none := by
  obtain ⟨-, hk⟩ | ⟨hdone, -⟩ | ⟨e, hdone, hk | heq⟩ := h.answers ha
  · simp [hk] at hkind
  · exact hdone
  · simp [hk] at hkind
  · have hk : kind = e.label := congrArg Resolution.kind heq
    cases e with
    | committed v => simp [hk, Expected.label] at hkind
    | rejected reason => simp [hk, Expected.label] at hkind

/-- The branches that stay when one of those that stay follows the execution. -/
lemma Followed.retain (h : Followed c l x) (initial : InventoryModel) (f : Finding)
    {p : Branch → Bool} (hp : ∀ b ∈ c.branches, b.Follows l x → p b = true) :
    (c.retain initial p f).branches = c.branches.filter p ∧ Followed (c.retain initial p f) l x := by
  obtain ⟨b, hb, hfollows⟩ := h.branch
  have hmem : b ∈ c.branches.filter p := List.mem_filter.mpr ⟨hb, hp b hb hfollows⟩
  have hbranches := branches_retain initial f (List.ne_nil_of_mem hmem)
  refine ⟨hbranches, fails_retain.mpr ⟨h.clean, List.ne_nil_of_mem hmem⟩, ⟨b, ?_, hfollows⟩,
    fun b' hb' => ?_⟩
  · rw [hbranches]
    exact hmem
  · rw [hbranches] at hb'
    exact h.results b' (List.mem_of_mem_filter hb')

/-- The records have no part in it. -/
lemma Followed.put (h : Followed c l x) {info : ReqInfo} : Followed (c.put req info) l x :=
  ⟨h.clean, h.branch, h.results⟩

lemma Followed.settle {step : ℕ} {info : ReqInfo} {e : Expected} (h : Followed c l x)
    (hop : l.op req = some op) (hfinal : l.final req = none) (hdone : x.done[req]? = some e)
    (hperformed : ∀ v, e = .committed v → v = op.result) :
    Followed (c.settle initial step req info ((receipt req).resolution e)) l x := by
  have hp (b : Branch) (_ : b ∈ c.branches) (hfollows : b.Follows l x) :
      (decide (req ∈ b.assumedCommitted) == decide (e.label = "COMMITTED")) = true := by
    have hassumed := hfollows.2 req hfinal
    rw [hdone] at hassumed
    cases e with
    | committed v => simpa [Expected.label] using hassumed
    | rejected reason => simpa [Expected.label] using hassumed
  obtain ⟨hbranches, hretain⟩ :=
    h.retain initial (.contradicted step req e.label c.branches.length) hp
  unfold Checker.settle
  apply Followed.put
  split
  · refine ⟨fails_fail.mpr ⟨hretain.clean, List.flatMap_eq_nil_iff.mpr fun b hb => ?_⟩,
      hretain.branch, hretain.results⟩
    rename_i hcommitted
    cases e with
    | rejected reason => simp [Receipt.resolution, Expected.label] at hcommitted
    | committed v =>
      obtain rfl := hperformed v rfl
      unfold Branch.checkResult
      split
      · rename_i expected actual hexpected hactual
        obtain ⟨op', hop', hresult⟩ := hretain.results b hb req _ hexpected
        rw [hop] at hop'
        cases hop'
        rw [if_neg]
        cases hactual
        exact not_not.mpr (Option.some.inj hresult)
      · rfl
  · exact hretain

lemma Followed.resolve {step : ℕ} (h : Followed c l x) (hag : Agrees c l) (hkept : Kept receipt l x)
    (htruth : Truthful receipt l x (.resolve req kind txnId rd res) x')
    (hsettle : Settling l x (.resolve req kind txnId rd res)) :
    Followed (c.resolve initial lastRestart step req ⟨kind, txnId, rd, res⟩)
      (l.step (.resolve req kind txnId rd res)) x := by
  apply Followed.of_ledger (l := l) _ (fun req' => Ledger.final_of_step)
    (fun req' op ho => Ledger.op_step ho _)
  unfold Checker.resolve
  cases hinfo : c.reqs[req]? with
  | none => exact h
  | some info =>
    have ha := hag.account_of hinfo
    have hkeptAt := hkept.requests req _ ha
    have hop : l.op req = some info.op := by rw [Ledger.op, ha]; rfl
    have hfinal : l.final req = info.finalReply := by rw [Ledger.final, ha]; rfl
    dsimp only
    split
    · rename_i hkind
      obtain ⟨e, hdone, heq⟩ := htruth.resolution ha hkind
      cases hreply : info.finalReply with
      | some f =>
        obtain ⟨e', hdone', rfl⟩ := hkeptAt.final f hreply
        rw [hdone] at hdone'
        cases hdone'
        cases heq
        dsimp only
        rw [Checker.failIf, if_neg (by simp [Receipt.final])]
        exact h.put
      | none =>
        have hunknown := hkeptAt.unknown hreply (by rw [hdone]; simp)
        dsimp only
        rw [if_neg (by simpa [ReqInfo.account] using hunknown), heq]
        exact h.settle hop (hfinal.trans hreply) hdone fun v hv => hkeptAt.performed v (hv ▸ hdone)
    · split_ifs with hwait habsent
      · have hdone := htruth.absent ha hwait
        have hnone : info.finalReply = none := hkeptAt.final_none hdone
        rw [Checker.failIf, if_neg (by simp [hnone])]
        refine (h.put.retain initial _ fun b _ hfollows => ?_).2
        have hassumed := hfollows.2 req (hfinal.trans hnone)
        rw [hdone] at hassumed
        simpa using hassumed
      · have hnone : info.finalReply = none := hkeptAt.final_none (htruth.absent ha hwait)
        rw [Checker.failIf, if_neg (by simp [hnone])]
        exact h.put
      · exact h.put

end Resolve

/-- The checker follows one event of a truthful system. -/
lemma Followed.step (initial : InventoryModel) (lastRestart : ℕ) {e : Event} (h : Followed c l x) (hag : Agrees c l) (hkept : Kept receipt l x)
    (hmove : Move l x e.event x') (htruth : Truthful receipt l x e.event x')
    (hsettle : Settling l x e.event) :
    ∃ c', c.step initial lastRestart e = .ok c' ∧ Followed c' (l.step e.event) x' := by
  unfold Checker.step
  generalize e.event = event at hmove htruth hsettle ⊢
  have hquiet {c' : Checker} (hfails : c'.fails = c.fails) (hbranches : c'.branches = c.branches) :
      Followed c' (l.step event) x := by
    apply Followed.of_ledger (l := l) _ (fun req' => Ledger.final_of_step)
      (fun req' op ho => Ledger.op_step ho _)
    exact ⟨hfails.trans h.clean, by rw [hbranches]; exact h.branch,
      by rw [hbranches]; exact h.results⟩
  cases event with
  | finalReply attempt req outcome txnId rd res => exact h.finalReply hag hkept hmove htruth hsettle
  | unknownReply attempt req => exact ⟨_, rfl, h.unknownReply hag hkept hmove⟩
  | resolve req kind txnId rd res =>
    cases hmove
    exact ⟨_, rfl, h.resolve hag hkept htruth hsettle⟩
  | decision | resultEvicted =>
    cases hmove
    exact ⟨_, rfl, hquiet fails_update branches_update⟩
  | _ =>
    cases hmove
    exact ⟨_, rfl, hquiet rfl rfl⟩

end Followed

section Histories

variable {receipt : String → Receipt} {initial : InventoryModel} {history : List Event}
  {x : Execution}

/-- What a truthful system with settling clients can do. -/
def TruthfulSettling (receipt : String → Receipt) (l : Ledger) (x : Execution) (e : HistoryEvent)
    (x' : Execution) : Prop :=
  Truthful receipt l x e x' ∧ Settling l x e

lemma scan_append {input : CheckerInput} {lastRestart : ℕ} {es : List Event} {e : Event}
    {explored n : ℕ} {c c₁ c₂ : Checker}
    (hscan : Checker.scan input lastRestart es explored c = .ok (c₁, n, none))
    (hstep : c₁.step input.initial lastRestart e = .ok c₂)
    (hbudget : n + c₁.branches.length ≤ input.budget) :
    Checker.scan input lastRestart (es ++ [e]) explored c =
      .ok (c₂, n + c₁.branches.length, none) := by
  induction es generalizing explored c with
  | nil =>
    cases hscan
    simp only [List.nil_append, Checker.scan, if_neg (not_lt.mpr hbudget), hstep]
    rfl
  | cons e' es ih =>
    rw [List.cons_append]
    unfold Checker.scan at hscan ⊢
    dsimp only at hscan ⊢
    split_ifs at hscan ⊢
    · cases hscan
    · obtain ⟨c', hstep', hrest⟩ := CoreResult.bind_eq_ok_iff.mp hscan
      rw [hstep']
      exact ih hrest

/-- With enough budget the checker reads the whole history and finds nothing. -/
lemma Run.followed (hinitial : initial.invariants = .ok ()) (lastRestart : ℕ)
    (h : Run initial (TruthfulSettling receipt) history x) :
    Kept receipt (Ledger.of history) x ∧ ∃ c n, Agrees c (Ledger.of history) ∧
      Followed c (Ledger.of history) x ∧ ∀ input : CheckerInput, input.initial = initial →
        n ≤ input.budget →
          Checker.scan input lastRestart history 0 (.start initial) = .ok (c, n, none) := by
  induction h with
  | start =>
    refine ⟨⟨fun req a ha => ?_, fun req _ => ⟨by simp, ?_⟩, hinitial⟩,
      .start initial, 0, .start initial, ⟨rfl, ⟨.root initial, by simp [Checker.start], rfl, ?_⟩, ?_⟩,
      fun input _ _ => rfl⟩
    · simp [Ledger.of, Ledger.empty] at ha
    · simp [Ledger.of, Ledger.empty]
    · simp [Branch.root]
    · simp [Checker.start, Branch.root]
  | @step es e x x' _ hmove hallows ih =>
    obtain ⟨hkept, c, n, hag, hfollowed, hscan⟩ := ih
    obtain ⟨c', hstep, hfollowed'⟩ := hfollowed.step initial lastRestart hag hkept
      hmove hallows.1 hallows.2
    rw [Ledger.of_append_singleton]
    refine ⟨hkept.step hmove hallows.1 hallows.2, c', n + c.branches.length, hag.step hstep,
      hfollowed', fun input hinput hbudget => ?_⟩
    subst hinput
    exact scan_append (hscan input rfl (by omega)) hstep hbudget

/-- A request that is final, decided and confirmed has no finding against it. -/
lemma checkRequest_eq_nil {lastRestart : ℕ} {req : String} {info : ReqInfo}
    (hdecided : info.finalReply ≠ none → info.decision ≠ none)
    (hanswers : ∀ f, info.finalReply = some f → lastRestart ≠ 0 →
      ∃ r, info.resolved = some r ∧ info.account.Answers f r) :
    Checker.checkRequest lastRestart req info = [] := by
  unfold Checker.checkRequest
  split
  · rfl
  · rename_i f hf
    rw [if_neg (hdecided (by rw [hf]; simp)), List.nil_append]
    split_ifs with hrestart
    · rfl
    · obtain ⟨r, hr, hanswer⟩ := hanswers f hf hrestart
      rw [hr]
      dsimp only
      obtain hk | hexpired := hanswer
      · rw [if_pos hk]
      · have hcond : r.kind = "EXPIRED" ∧ info.evicted = true ∧
            r.receiptDigest = some f.receiptDigest := hexpired
        rw [if_pos hcond]
        exact ite_self _

lemma flatMap_checkRequest {c : Checker} {lastRestart : ℕ}
    (h : ∀ req info, c.reqs[req]? = some info → Checker.checkRequest lastRestart req info = []) :
    (c.reqs.toList.flatMap fun (req, info) => Checker.checkRequest lastRestart req info) = [] := by
  rw [List.flatMap_eq_nil_iff]
  rintro ⟨req, info⟩ hmem
  exact h req info (FiniteMap.mem_toList.mp hmem)

lemma checkFinalState_followed {c : Checker} {l : Ledger} (h : Followed c l x)
    (hinv : x.model.invariants = .ok ()) : c.checkFinalState (some x.model) = .ok [] := by
  obtain ⟨b, hb, hmodel, -⟩ := h.branch
  have hany : (c.branches.any fun b => decide (b.model = x.model)) = true :=
    List.any_eq_true.mpr ⟨b, hb, decide_eq_true hmodel⟩
  simp only [Checker.checkFinalState, Checker.matchFinalState, hany, if_true, hinv]
  rfl

def aReceipt : Receipt := ⟨[1], Hash256.zero, Hash256.zero⟩

/-- A reservation performed when its first reply was lost, and told by a retry. -/
def retriedReserve : CheckerInput where
  history :=
    [⟨1, .invoke 1 "a" (List.replicate 48 0) Hash256.zero (.reserve anItem 2 anItem)⟩,
     ⟨2, .unknownReply 1 "a"⟩,
     ⟨3, .invoke 2 "a" (List.replicate 48 0) Hash256.zero (.reserve anItem 2 anItem)⟩,
     ⟨4, .decision "a" [1] "COMMITTED" Hash256.zero⟩,
     ⟨5, .finalReply 2 "a" "COMMITTED" [1] Hash256.zero
       (sha256 (W1Op.reserve anItem 2 anItem).result.toCanon.encode)⟩]
  initial := .seed [(anItem, 10)]
  finalState := some (InventoryModel.apply (.seed [(anItem, 10)]) (.reserve anItem 2 anItem)).2
  budget := 100

/-- Whether a rule gets a status. -/
def reports (input : CheckerInput) (rule : Rule) (status : Status) : Bool :=
  match check input with
  | .ok results => results.any fun r => r.rule = rule && r.status = status
  | .error _ => false

set_option maxRecDepth 100000 in
lemma exists_run_retriedReserve : ∃ x,
    Run retriedReserve.initial (Truthful fun _ => aReceipt) retriedReserve.history x ∧
      retriedReserve.finalState = some x.model := by
  let op : W1Op := .reserve anItem 2 anItem
  let invoke (attempt : ℕ) : HistoryEvent :=
    .invoke attempt "a" (List.replicate 48 0) Hash256.zero op
  let a : Account := ⟨op, List.replicate 48 0, false, none, none, false, false⟩
  let x : Execution := Execution.perform ⟨retriedReserve.initial, ∅⟩ "a" op
  have hcommits : (retriedReserve.initial.apply op).1 = .committed op.result := by
    obtain ⟨reason, -, happly⟩ | ⟨next, -, happly, -⟩ := retriedReserve.initial.apply_cases op
    · have : (retriedReserve.initial.apply op).1.isCommitted = true := by decide
      rw [happly] at this
      cases this
    · rw [happly]
  have hmove : Move (Ledger.of [⟨1, invoke 1⟩]) ⟨retriedReserve.initial, ∅⟩ (.unknownReply 1 "a") x := by
    apply Move.atUnknown (a := a)
    · decide
    · simp [Ledger.of, Ledger.step, Ledger.invoke, invoke, Ledger.empty, a]
    · simp
  have hfinal : Truthful (fun _ => aReceipt) (Ledger.of (retriedReserve.history.take 4)) x
      (.finalReply 2 "a" "COMMITTED" [1] Hash256.zero (sha256 op.result.toCanon.encode)) x := by
    have hsome : ((Ledger.of (retriedReserve.history.take 4)).accounts["a"]?).isSome = true := by
      decide
    have hkept : ∀ p ∈ (Ledger.of (retriedReserve.history.take 4)).accounts.toList,
        namespaceOf p.2.key ∉ (Ledger.of (retriedReserve.history.take 4)).retired ∧
          p.2.evicted = false := by
      decide
    obtain ⟨a', ha'⟩ := Option.isSome_iff_exists.mp hsome
    refine ⟨by decide, ⟨a', ha', hkept ("a", a') (FiniteMap.mem_toList.mpr ha')⟩,
      .committed op.result, ?_, rfl⟩
    rw [← hcommits]
    exact FiniteMap.get_insert_self
  have h₀ : Run retriedReserve.initial (Truthful fun _ => aReceipt) [] ⟨retriedReserve.initial, ∅⟩ :=
    .start
  have h₁ := h₀.step (.idle _) (e := ⟨1, invoke 1⟩) (by simp [Truthful, invoke])
  have h₂ := h₁.step (e := ⟨2, .unknownReply 1 "a"⟩) hmove trivial
  have h₃ := h₂.step (.idle _) (e := ⟨3, invoke 2⟩) (by simp [Truthful, invoke])
  have h₄ := h₃.step (.idle _) (e := ⟨4, .decision "a" [1] "COMMITTED" Hash256.zero⟩) trivial
  exact ⟨x, h₄.step (e := ⟨5, .finalReply 2 "a" "COMMITTED" [1] Hash256.zero
    (sha256 op.result.toCanon.encode)⟩) (.idle _) hfinal, rfl⟩

end Histories

end CarolinaDB.Qualify
