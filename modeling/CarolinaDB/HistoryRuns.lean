import CarolinaDB.HistoryChecker

/-!
# Executions behind a history

What a history says about each request so far, and the executions it can come from: every
request is performed at most once, at one of its replies. The records the checker keeps are
what the history says.
-/
namespace CarolinaDB.Qualify

/-- What a history says about a request. -/
structure Account where
  op : W1Op
  key : Bytes
  /-- A reply left it unknown before it was final. -/
  unknown : Bool
  final : Option FinalRef
  resolved : Option Resolution
  evicted : Bool
  decided : Bool

namespace Account

def finalReply (f : FinalRef) (a : Account) : Account := { a with final := some (a.final.getD f) }

def unknownReply (a : Account) : Account := if a.final.isSome then a else { a with unknown := true }

/-- A resolution makes an unknown request final. -/
def resolve (r : Resolution) (a : Account) : Account :=
  { a with
    resolved := some r
    final := if (r.kind = "COMMITTED" ∨ r.kind = "REJECTED") ∧ a.final = none ∧ a.unknown = true
      then some r.asFinal else a.final }

def decide (a : Account) : Account := { a with decided := true }

def evict (a : Account) : Account := { a with evicted := true }

end Account

structure Ledger where
  accounts : FiniteMap String Account
  /-- The content a key was first used for. -/
  owner : FiniteMap Bytes Hash256
  /-- The attempts that used a key for other content. -/
  foreign : FiniteMap ℕ Bool
  retired : Finset Bytes
  /-- Requests left unknown and not found absent since. -/
  doubtful : Finset String
  /-- Requests resolved since they were final. -/
  confirmed : Finset String

namespace Ledger

def empty : Ledger := ⟨∅, ∅, ∅, ∅, ∅, ∅⟩

def adjust (l : Ledger) (req : String) (f : Account → Account) : Ledger :=
  match l.accounts[req]? with
  | some a => { l with accounts := l.accounts.insert req (f a) }
  | none => l

def isForeign (l : Ledger) (attempt : ℕ) : Bool := l.foreign[attempt]?.getD false

def final (l : Ledger) (req : String) : Option FinalRef := l.accounts[req]?.bind (·.final)

def op (l : Ledger) (req : String) : Option W1Op := l.accounts[req]?.map (·.op)

def invoke (l : Ledger) (attempt : ℕ) (req : String) (key : Bytes) (hash : Hash256) (op : W1Op) :
    Ledger :=
  { l with
    owner := if l.owner[key]?.isSome then l.owner else l.owner.insert key hash
    foreign := l.foreign.insert attempt (decide (l.owner[key]?.getD hash ≠ hash))
    accounts := if l.accounts[req]?.isSome then l.accounts
      else l.accounts.insert req ⟨op, key, false, none, none, false, false⟩ }

def unknownReply (l : Ledger) (attempt : ℕ) (req : String) : Ledger :=
  if l.isForeign attempt then l
  else
    { l.adjust req Account.unknownReply with
      doubtful := if l.accounts[req]?.isSome ∧ l.final req = none then insert req l.doubtful
        else l.doubtful }

def resolve (l : Ledger) (req : String) (r : Resolution) : Ledger :=
  let next := l.adjust req (Account.resolve r)
  { next with
    doubtful := if r.kind = "ABSENT" then l.doubtful.erase req else l.doubtful
    confirmed := if (next.final req).isSome then insert req l.confirmed else l.confirmed }

def step (l : Ledger) : HistoryEvent → Ledger
  | .invoke attempt req key hash op => l.invoke attempt req key hash op
  | .finalReply attempt req outcome txnId receiptDigest resultDigest =>
    if l.isForeign attempt then l
    else l.adjust req (Account.finalReply ⟨outcome, txnId, receiptDigest, resultDigest⟩)
  | .unknownReply attempt req => l.unknownReply attempt req
  | .decision req _ _ _ => l.adjust req Account.decide
  | .resolve req kind txnId receiptDigest resultDigest =>
    l.resolve req ⟨kind, txnId, receiptDigest, resultDigest⟩
  | .resultEvicted req => l.adjust req Account.evict
  | .namespaceRetired ns => { l with retired := insert ns l.retired }
  | .admissionRefusal _ _ _ | .expiredReply _ _ _ | .crash _ _ | .restart _ | .checkpoint => l

/-- What the whole history says. -/
def of (history : List Event) : Ledger := history.foldl (fun l e => l.step e.event) empty

lemma of_append_singleton (history : List Event) (e : Event) :
    of (history ++ [e]) = (of history).step e.event := by
  simp [of]

variable {l : Ledger} {req req' : String} {f : Account → Account}

lemma accounts_adjust : (l.adjust req f).accounts[req']? =
    if req = req' then l.accounts[req']?.map f else l.accounts[req']? := by
  unfold adjust
  split
  · rename_i a ha
    rw [FiniteMap.get_insert]
    split_ifs with heq
    · subst heq
      rw [ha, Option.map_some]
    · rfl
  · rename_i ha
    split_ifs with heq
    · subst heq
      rw [ha, Option.map_none]
    · rfl

lemma of_accounts_adjust {a' : Account} (h : (l.adjust req f).accounts[req]? = some a') :
    ∃ a, l.accounts[req]? = some a ∧ f a = a' := by
  rw [accounts_adjust, if_pos rfl] at h
  exact Option.map_eq_some_iff.mp h

lemma adjust_frame (l : Ledger) (req : String) (f : Account → Account) :
    (l.adjust req f).owner = l.owner ∧ (l.adjust req f).foreign = l.foreign ∧
      (l.adjust req f).retired = l.retired ∧ (l.adjust req f).doubtful = l.doubtful ∧
      (l.adjust req f).confirmed = l.confirmed := by
  unfold adjust
  split <;> simp

lemma final_adjust : (l.adjust req f).final req' =
    if req = req' then l.accounts[req']?.bind fun a => (f a).final else l.final req' := by
  rw [final, accounts_adjust]
  split_ifs
  · rw [Option.bind_map]
    rfl
  · rfl

lemma final_adjust_same (hf : ∀ a, (f a).final = a.final) :
    (l.adjust req f).final req' = l.final req' := by
  rw [final_adjust]
  split_ifs
  · exact Option.bind_congr fun a _ => hf a
  · rfl

lemma op_adjust (hf : ∀ a, (f a).op = a.op) : (l.adjust req f).op req' = l.op req' := by
  rw [op, accounts_adjust]
  split_ifs
  · rw [Option.map_map]
    exact Option.map_congr fun a _ => hf a
  · rfl

lemma final_unknownReply {attempt : ℕ} :
    (l.unknownReply attempt req).final req' = l.final req' := by
  unfold unknownReply
  split_ifs
  · rfl
  all_goals
    apply final_adjust_same (f := Account.unknownReply)
    intro a
    unfold Account.unknownReply
    split_ifs <;> rfl

lemma doubtful_unknownReply_subset {attempt : ℕ} :
    l.doubtful ⊆ (l.unknownReply attempt req).doubtful := by
  unfold unknownReply
  split_ifs
  · exact Finset.Subset.refl _
  · exact Finset.subset_insert _ _
  · exact Finset.Subset.refl _

lemma mem_doubtful_unknownReply {attempt : ℕ} {a : Account} (hforeign : l.isForeign attempt = false)
    (ha : l.accounts[req]? = some a) (hfinal : l.final req = none) :
    req ∈ (l.unknownReply attempt req).doubtful := by
  simp [unknownReply, hforeign, ha, hfinal]

/-- A resolution that settles nothing. -/
lemma final_resolve_same {r : Resolution} (h : ∀ a, l.accounts[req]? = some a →
      ¬ ((r.kind = "COMMITTED" ∨ r.kind = "REJECTED") ∧ a.final = none ∧ a.unknown = true)) :
    (l.resolve req r).final req' = l.final req' := by
  refine final_adjust.trans ?_
  split_ifs with heq
  · subst heq
    refine Option.bind_congr fun a ha => ?_
    rw [Account.resolve, if_neg (h a ha)]
  · rfl

lemma final_resolve {r : Resolution} {a : Account} (ha : l.accounts[req]? = some a)
    (hkind : r.kind = "COMMITTED" ∨ r.kind = "REJECTED") (hfinal : a.final = none)
    (hunknown : a.unknown = true) :
    (l.resolve req r).final req' = if req = req' then some r.asFinal else l.final req' := by
  refine final_adjust.trans ?_
  split_ifs with heq
  · subst heq
    rw [ha, Option.bind_some, Account.resolve, if_pos ⟨hkind, hfinal, hunknown⟩]
  · rfl

/-- The operation of a request is set when it is first invoked. -/
lemma op_step_cases (l : Ledger) (e : HistoryEvent) : (l.step e).op req = l.op req ∨
    l.op req = none ∧ ∃ attempt key hash op, e = .invoke attempt req key hash op ∧
      (l.step e).op req = some op := by
  cases e with
  | invoke attempt req' key hash op =>
    simp only [step, invoke, Ledger.op]
    split_ifs with hsome
    · exact .inl rfl
    · rw [FiniteMap.get_insert]
      split_ifs with heq
      · subst heq
        rw [Option.not_isSome_iff_eq_none.mp hsome]
        exact .inr ⟨rfl, attempt, key, hash, op, rfl, rfl⟩
      · exact .inl rfl
  | finalReply attempt req' outcome txnId rd res =>
    simp only [step]
    split_ifs
    · exact .inl rfl
    · exact .inl (op_adjust fun a => by rfl)
  | unknownReply attempt req' =>
    simp only [step, unknownReply]
    split_ifs
    · exact .inl rfl
    all_goals
      refine .inl (op_adjust (f := Account.unknownReply) fun a => ?_)
      unfold Account.unknownReply
      split_ifs <;> rfl
  | resolve req' kind txnId rd res =>
    exact .inl (op_adjust (f := Account.resolve ⟨kind, txnId, rd, res⟩) fun a => rfl)
  | decision => exact .inl (op_adjust (f := Account.decide) fun a => rfl)
  | resultEvicted => exact .inl (op_adjust (f := Account.evict) fun a => rfl)
  | namespaceRetired | admissionRefusal | expiredReply | crash | restart | checkpoint =>
    exact .inl rfl

lemma op_step {o : W1Op} (h : l.op req = some o) (e : HistoryEvent) : (l.step e).op req = some o := by
  obtain heq | ⟨hnone, -⟩ := l.op_step_cases e
  · rw [heq]
    exact h
  · rw [h] at hnone
    cases hnone

/-- A request was invoked with its operation. -/
lemma invoked_of_op {es : List Event} {o : W1Op} (h : (of es).op req = some o) :
    ∃ e ∈ es, ∃ attempt key hash, e.event = .invoke attempt req key hash o := by
  induction es using List.reverseRecOn with
  | nil => simp [of, empty, op] at h
  | append_singleton es e ih =>
    rw [of_append_singleton] at h
    obtain heq | ⟨-, attempt, key, hash, op, he, hset⟩ := (of es).op_step_cases e.event
    · rw [heq] at h
      obtain ⟨e', he', hinvoke⟩ := ih h
      exact ⟨e', List.mem_append_left _ he', hinvoke⟩
    · rw [h] at hset
      cases hset
      exact ⟨e, by simp, attempt, key, hash, he⟩

/-- The request an event is about. -/
def subject : HistoryEvent → Option String
  | .invoke _ req _ _ _ | .finalReply _ req _ _ _ _ | .unknownReply _ req | .decision req _ _ _
  | .resolve req _ _ _ _ | .resultEvicted req => some req
  | _ => none

/-- An event leaves the accounts of other requests alone. -/
lemma accounts_step_of_ne {e : HistoryEvent} (h : subject e ≠ some req) :
    (l.step e).accounts[req]? = l.accounts[req]? := by
  cases e with
  | invoke attempt req' key hash op =>
    simp only [step, invoke]
    split_ifs
    · rfl
    · exact FiniteMap.get_insert_of_ne fun heq => h (congrArg some heq)
  | finalReply attempt req' outcome txnId rd res =>
    simp only [step]
    split_ifs
    · rfl
    · rw [accounts_adjust, if_neg fun heq => h (congrArg some heq)]
  | unknownReply attempt req' =>
    simp only [step, unknownReply]
    split_ifs
    · rfl
    all_goals
      exact accounts_adjust.trans (if_neg fun heq => h (congrArg some heq))
  | resolve req' kind txnId rd res =>
    exact accounts_adjust.trans (if_neg fun heq => h (congrArg some heq))
  | decision => exact accounts_adjust.trans (if_neg fun heq => h (congrArg some heq))
  | resultEvicted => exact accounts_adjust.trans (if_neg fun heq => h (congrArg some heq))
  | namespaceRetired | admissionRefusal | expiredReply | crash | restart | checkpoint => rfl

/-- Only a resolution confirms, and only its request. -/
lemma confirmed_step {e : HistoryEvent} (h : req ∈ (l.step e).confirmed) :
    req ∈ l.confirmed ∨ ∃ kind txnId rd res, e = .resolve req kind txnId rd res ∧
      ((l.step e).final req).isSome = true := by
  cases e with
  | finalReply attempt req' outcome txnId rd res =>
    simp only [step] at h
    split_ifs at h
    · exact .inl h
    · rw [(adjust_frame _ _ _).2.2.2.2] at h
      exact .inl h
  | unknownReply attempt req' =>
    simp only [step, unknownReply] at h
    split_ifs at h
    · exact .inl h
    all_goals
      rw [(adjust_frame _ _ _).2.2.2.2] at h
      exact .inl h
  | resolve req' kind txnId rd res =>
    simp only [step, resolve] at h
    split_ifs at h with hsome
    · obtain rfl | h := Finset.mem_insert.mp h
      · exact .inr ⟨kind, txnId, rd, res, rfl, hsome⟩
      · exact .inl h
    · exact .inl h
  | decision | resultEvicted =>
    simp only [step] at h
    rw [(adjust_frame _ _ _).2.2.2.2] at h
    exact .inl h
  | invoke | namespaceRetired | admissionRefusal | expiredReply | crash | restart | checkpoint =>
    exact .inl h

/-- What is unknown or final stays so. -/
lemma accounts_step {a : Account} (ha : l.accounts[req]? = some a) (e : HistoryEvent) :
    ∃ a', (l.step e).accounts[req]? = some a' ∧ (a.unknown = true → a'.unknown = true) ∧
      (a.final.isSome = true → a'.final.isSome = true) := by
  have hadjust {f : Account → Account} {req' : String}
      (hf : (a.unknown = true → (f a).unknown = true) ∧
        (a.final.isSome = true → (f a).final.isSome = true)) :
      ∃ a', (l.adjust req' f).accounts[req]? = some a' ∧ (a.unknown = true → a'.unknown = true) ∧
        (a.final.isSome = true → a'.final.isSome = true) := by
    rw [accounts_adjust, ha]
    split_ifs
    · exact ⟨f a, rfl, hf⟩
    · exact ⟨a, rfl, id, id⟩
  cases e with
  | invoke attempt req' key hash op =>
    refine ⟨a, ?_, id, id⟩
    simp only [step, invoke]
    split_ifs with hsome
    · exact ha
    · rw [FiniteMap.get_insert_of_ne]
      · exact ha
      · rintro rfl
        simp [ha] at hsome
  | finalReply attempt req' outcome txnId rd res =>
    simp only [step]
    split_ifs
    · exact ⟨a, ha, id, id⟩
    · exact hadjust ⟨id, fun _ => rfl⟩
  | unknownReply attempt req' =>
    have hf : (a.unknown = true → a.unknownReply.unknown = true) ∧
        (a.final.isSome = true → a.unknownReply.final.isSome = true) := by
      unfold Account.unknownReply
      split_ifs
      · exact ⟨id, id⟩
      · exact ⟨fun _ => rfl, id⟩
    simp only [step, unknownReply]
    split_ifs
    · exact ⟨a, ha, id, id⟩
    · exact hadjust hf
    · exact hadjust hf
  | resolve req' kind txnId rd res =>
    refine hadjust (f := Account.resolve ⟨kind, txnId, rd, res⟩) ⟨id, fun hsome => ?_⟩
    simp only [Account.resolve]
    split_ifs
    · rfl
    · exact hsome
  | decision => exact hadjust (f := Account.decide) ⟨id, id⟩
  | resultEvicted => exact hadjust (f := Account.evict) ⟨id, id⟩
  | namespaceRetired | admissionRefusal | expiredReply | crash | restart | checkpoint =>
    exact ⟨a, ha, id, id⟩

lemma final_of_step {e : HistoryEvent} (h : (l.step e).final req = none) : l.final req = none := by
  cases ha : l.accounts[req]? with
  | none =>
    rw [final, ha]
    rfl
  | some a =>
    obtain ⟨a', ha', -, hsome⟩ := accounts_step ha e
    rw [final, ha', Option.bind_some] at h
    rw [final, ha, Option.bind_some]
    by_contra hne
    have := hsome (Option.isSome_iff_ne_none.mpr hne)
    rw [h] at this
    cases this

/-- The events that can make a request final or doubtful. -/
def tells : HistoryEvent → Bool
  | .finalReply _ _ _ _ _ _ | .unknownReply _ _ | .resolve _ _ _ _ _ => true
  | _ => false

lemma step_of_not_tells {e : HistoryEvent} (h : tells e = false) (req : String) :
    (l.step e).final req = l.final req ∧ (l.step e).doubtful = l.doubtful := by
  cases e with
  | finalReply | unknownReply | resolve => cases h
  | invoke attempt req' key hash op =>
    refine ⟨?_, rfl⟩
    simp only [step, invoke, final]
    split_ifs with hsome
    · rfl
    · rw [FiniteMap.get_insert]
      split_ifs with heq
      · subst heq
        rw [Option.not_isSome_iff_eq_none.mp hsome]
        rfl
      · rfl
  | decision =>
    exact ⟨final_adjust_same (f := Account.decide) fun a => rfl, (adjust_frame _ _ _).2.2.2.1⟩
  | resultEvicted =>
    exact ⟨final_adjust_same (f := Account.evict) fun a => rfl, (adjust_frame _ _ _).2.2.2.1⟩
  | namespaceRetired | admissionRefusal | expiredReply | crash | restart | checkpoint =>
    exact ⟨rfl, rfl⟩

/-- A request comes into doubt by a reply that leaves it unknown. -/
lemma doubtful_step {e : HistoryEvent} (h : req ∈ (l.step e).doubtful) :
    req ∈ l.doubtful ∨ ∃ attempt, e = .unknownReply attempt req ∧ l.isForeign attempt = false ∧
      l.accounts[req]?.isSome = true ∧ l.final req = none := by
  by_cases htells : tells e = false
  · rw [(step_of_not_tells htells req).2] at h
    exact .inl h
  cases e with
  | finalReply attempt req' outcome txnId rd res =>
    simp only [step] at h
    split_ifs at h
    · exact .inl h
    · rw [(adjust_frame _ _ _).2.2.2.1] at h
      exact .inl h
  | unknownReply attempt req' =>
    simp only [step, unknownReply] at h
    split_ifs at h with hforeign hcond
    · exact .inl h
    · obtain rfl | h := Finset.mem_insert.mp h
      · exact .inr ⟨attempt, rfl, Bool.eq_false_iff.mpr hforeign, hcond⟩
      · exact .inl h
    · exact .inl h
  | resolve req' kind txnId rd res =>
    simp only [step, resolve] at h
    split_ifs at h
    · exact .inl (Finset.mem_of_mem_erase h)
    · exact .inl h
  | _ => exact absurd rfl htells

/-- Whoever is in doubt was invoked and left unknown. -/
lemma account_of_doubtful (es : List Event) (req : String) (h : req ∈ (of es).doubtful) :
    ∃ a, (of es).accounts[req]? = some a ∧ (a.unknown = true ∨ a.final.isSome = true) := by
  induction es using List.reverseRecOn with
  | nil => simp [of, empty] at h
  | append_singleton es e ih =>
    rw [of_append_singleton] at h ⊢
    obtain hold | ⟨attempt, he, hforeign, hsome, hfinal⟩ := doubtful_step h
    · obtain ⟨a, ha, hmark⟩ := ih hold
      obtain ⟨a', ha', hunknown, hfinal⟩ := accounts_step ha e.event
      exact ⟨a', ha', hmark.imp hunknown hfinal⟩
    · obtain ⟨a, ha⟩ := Option.isSome_iff_exists.mp hsome
      refine ⟨a.unknownReply, ?_, ?_⟩
      · simp only [he, step, unknownReply, hforeign, Bool.false_eq_true, if_false]
        rw [accounts_adjust, if_pos rfl, ha]
        rfl
      · unfold Account.unknownReply
        split_ifs with hsome'
        · exact .inr hsome'
        · exact .inl rfl

end Ledger

structure Execution where
  model : InventoryModel
  /-- The requests performed so far, with what the contract gave. -/
  done : FiniteMap String Expected

namespace Execution

def perform (x : Execution) (req : String) (op : W1Op) : Execution :=
  ⟨(x.model.apply op).2, x.done.insert req (x.model.apply op).1⟩

end Execution

/-- At a reply its request may be performed, if that was not done before and the attempt is one
of this request. -/
inductive Move (l : Ledger) (x : Execution) : HistoryEvent → Execution → Prop
  | idle (e : HistoryEvent) : Move l x e x
  | atFinal {attempt : ℕ} {req outcome : String} {txnId : Bytes} {rd res : Hash256} {a : Account} :
    l.isForeign attempt = false → l.accounts[req]? = some a → x.done[req]? = none →
      Move l x (.finalReply attempt req outcome txnId rd res) (x.perform req a.op)
  | atUnknown {attempt : ℕ} {req : String} {a : Account} :
    l.isForeign attempt = false → l.accounts[req]? = some a → x.done[req]? = none →
      Move l x (.unknownReply attempt req) (x.perform req a.op)

lemma Move.done_of_ne {l : Ledger} {x x' : Execution} {e : HistoryEvent} {req : String}
    (h : Move l x e x') (hne : Ledger.subject e ≠ some req) : x'.done[req]? = x.done[req]? := by
  cases h with
  | idle => rfl
  | atFinal => exact FiniteMap.get_insert_of_ne fun heq => hne (congrArg some heq)
  | atUnknown => exact FiniteMap.get_insert_of_ne fun heq => hne (congrArg some heq)

/-- An execution behind a history, with what is allowed at each event. -/
inductive Run (initial : InventoryModel)
    (Allows : Ledger → Execution → HistoryEvent → Execution → Prop) : List Event → Execution → Prop
  | start : Run initial Allows [] ⟨initial, ∅⟩
  | step {es : List Event} {e : Event} {x x' : Execution} : Run initial Allows es x →
    Move (Ledger.of es) x e.event x' → Allows (Ledger.of es) x e.event x' →
      Run initial Allows (es ++ [e]) x'

/-- What the checker records about a request. -/
def ReqInfo.account (info : ReqInfo) : Account where
  op := info.op
  key := info.requestKey
  unknown := decide (info.unknownAttempts ≠ [])
  final := info.finalReply
  resolved := info.resolved
  evicted := info.evicted
  decided := info.decision.isSome

/-- The checker's records are what the history says. -/
structure Agrees (c : Checker) (l : Ledger) : Prop where
  accounts : ∀ req : String, l.accounts[req]? = c.reqs[req]?.map ReqInfo.account
  owner : ∀ key : Bytes, l.owner[key]? = c.keyOwner[key]?.map Prod.snd
  foreign : ∀ attempt : ℕ, l.foreign[attempt]? = c.attempts[attempt]?.map Prod.snd
  retired : l.retired = c.retired

namespace Checker

/-- The records of a checker, its findings and branches left aside. -/
def records (c : Checker) : FiniteMap String ReqInfo × FiniteMap Bytes (String × Hash256) ×
    FiniteMap ℕ (String × Bool) × Finset Bytes :=
  (c.reqs, c.keyOwner, c.attempts, c.retired)

variable {c : Checker} {initial : InventoryModel} {p : Branch → Bool} {f : Finding}

@[simp] lemma records_fail (fs : List Finding) : (c.fail fs).records = c.records := rfl

@[simp] lemma records_failIf (cond : Prop) [Decidable cond] :
    (c.failIf cond f).records = c.records := by
  unfold failIf
  split <;> rfl

@[simp] lemma records_retain : (c.retain initial p f).records = c.records := by
  unfold retain
  split <;> rfl

lemma records_put {c' : Checker} (h : c'.records = c.records) {req : String} {info : ReqInfo} :
    (c'.put req info).records = (c.put req info).records := by
  simp only [records, put, Prod.mk.injEq] at h ⊢
  rw [h.1]
  exact ⟨rfl, h.2⟩

lemma records_firstReply {c' : Checker} {step : ℕ} {req : String} {info : ReqInfo} {f : FinalRef}
    (h : c.firstReply step req info f = .ok c') :
    c'.records = (c.put req { info with finalReply := some f }).records := by
  unfold firstReply at h
  dsimp only at h
  split_ifs at h
  · split at h
    · cases h
    · cases h
      rfl
  · cases h
    rfl

lemma records_settle {step : ℕ} {req : String} {info : ReqInfo} {r : Resolution} :
    (c.settle initial step req info r).records =
      (c.put req { info with finalReply := some r.asFinal }).records := by
  unfold settle
  apply records_put
  split
  · rw [records_fail, records_retain]
  · rw [records_retain]

end Checker

namespace Agrees

variable {c c' : Checker} {l : Ledger} {req : String} {info : ReqInfo}

lemma of_records (h : Agrees c l) (hrec : c'.records = c.records) : Agrees c' l := by
  obtain ⟨hreqs, howner, hattempts, hretired⟩ : c'.reqs = c.reqs ∧ c'.keyOwner = c.keyOwner ∧
      c'.attempts = c.attempts ∧ c'.retired = c.retired := by
    simpa [Checker.records] using hrec
  exact ⟨by rw [hreqs]; exact h.accounts, by rw [howner]; exact h.owner,
    by rw [hattempts]; exact h.foreign, by rw [hretired]; exact h.retired⟩

/-- The doubts and confirmations are not the checker's. -/
lemma of_fields (h : Agrees c l) {doubtful confirmed : Finset String} :
    Agrees c { l with doubtful := doubtful, confirmed := confirmed } :=
  ⟨h.accounts, h.owner, h.foreign, h.retired⟩

lemma isForeign (h : Agrees c l) (attempt : ℕ) : l.isForeign attempt = c.mismatched attempt := by
  rw [Ledger.isForeign, Checker.mismatched, h.foreign]
  cases c.attempts[attempt]? <;> rfl

lemma account_of (h : Agrees c l) (hinfo : c.reqs[req]? = some info) :
    l.accounts[req]? = some info.account := by
  rw [h.accounts, hinfo, Option.map_some]

lemma account_none (h : Agrees c l) (hinfo : c.reqs[req]? = none) : l.accounts[req]? = none := by
  rw [h.accounts, hinfo, Option.map_none]

/-- A record rewritten on both sides. -/
lemma put (h : Agrees c l) (hinfo : c.reqs[req]? = some info) (f : Account → Account)
    (info' : ReqInfo) (hf : f info.account = info'.account) :
    Agrees (c.put req info') (l.adjust req f) := by
  obtain ⟨howner, hforeign, hretired, -, -⟩ := l.adjust_frame req f
  refine ⟨fun req' => ?_, by rw [howner]; exact h.owner, by rw [hforeign]; exact h.foreign,
    by rw [hretired]; exact h.retired⟩
  rw [Ledger.accounts_adjust, Checker.put, FiniteMap.get_insert, h.accounts]
  split_ifs with heq
  · subst heq
    rw [hinfo, Option.map_some, Option.map_some, Option.map_some, hf]
  · rfl

lemma adjust_same (h : Agrees c l) (req : String) (f : Account → Account)
    (hf : ∀ info, c.reqs[req]? = some info → f info.account = info.account) :
    Agrees c (l.adjust req f) := by
  obtain ⟨howner, hforeign, hretired, -, -⟩ := l.adjust_frame req f
  refine ⟨fun req' => ?_, by rw [howner]; exact h.owner, by rw [hforeign]; exact h.foreign,
    by rw [hretired]; exact h.retired⟩
  rw [Ledger.accounts_adjust, h.accounts]
  split_ifs with heq
  · subst heq
    cases hinfo : c.reqs[req]? with
    | none => rfl
    | some info => rw [Option.map_some, Option.map_some, hf info hinfo]
  · rfl

lemma update (h : Agrees c l) {f : Account → Account} {g : ReqInfo → ReqInfo}
    (hf : ∀ info : ReqInfo, f info.account = (g info).account) :
    Agrees (c.update req g) (l.adjust req f) := by
  unfold Checker.update
  split
  · rename_i info hinfo
    exact h.put hinfo f _ (hf info)
  · rename_i hinfo
    apply h.adjust_same req f
    intro info hinfo'
    rw [hinfo] at hinfo'
    cases hinfo'

lemma invoke (h : Agrees c l) (attempt : ℕ) (req : String) (key : Bytes) (hash : Hash256)
    (op : W1Op) : Agrees (c.invoke attempt req key hash op) (l.invoke attempt req key hash op) := by
  unfold Checker.invoke Ledger.invoke
  have howner := h.owner key
  have haccount := h.accounts req
  refine ⟨fun req' => ?_, fun key' => ?_, fun attempt' => ?_, h.retired⟩
  · rw [haccount]
    cases c.reqs[req]? with
    | some info => exact h.accounts req'
    | none =>
      simp only [Option.map_none, Option.isSome_none, Bool.false_eq_true, if_false,
        FiniteMap.get_insert, apply_ite (Option.map ReqInfo.account), Option.map_some, h.accounts]
      rfl
  · rw [howner]
    cases c.keyOwner[key]? with
    | some o => exact h.owner key'
    | none =>
      simp only [Option.map_none, Option.isSome_none, Bool.false_eq_true, if_false,
        FiniteMap.get_insert, apply_ite (Option.map Prod.snd), Option.map_some, h.owner]
  · rw [howner, FiniteMap.get_insert, FiniteMap.get_insert, apply_ite (Option.map Prod.snd),
      h.foreign]
    cases c.keyOwner[key]? <;> simp

lemma finalReply (h : Agrees c l) {step attempt : ℕ} {f : FinalRef}
    (hok : c.finalReply step attempt req f = .ok c') :
    Agrees c' (if l.isForeign attempt then l else l.adjust req (Account.finalReply f)) := by
  unfold Checker.finalReply at hok
  rw [h.isForeign]
  split_ifs at hok ⊢ with hforeign
  · cases hok
    exact h.of_records rfl
  split at hok
  · rename_i hinfo
    cases hok
    refine (h.adjust_same req _ fun info hinfo' => ?_).of_records rfl
    rw [hinfo] at hinfo'
    cases hinfo'
  rename_i info hinfo
  split_ifs at hok with hlen
  dsimp only at hok
  split at hok
  · rename_i old hold
    cases hok
    refine (h.adjust_same req _ fun info' hinfo' => ?_).of_records (by simp)
    rw [hinfo] at hinfo'
    cases hinfo'
    simp [Account.finalReply, ReqInfo.account, hold]
  · rename_i hnone
    apply (h.put hinfo (Account.finalReply f) _ _).of_records
    · rw [Checker.records_firstReply hok]
      exact Checker.records_put (by simp)
    · simp [Account.finalReply, ReqInfo.account, hnone]

lemma unknownReply (h : Agrees c l) (attempt : ℕ) (req : String) :
    Agrees (c.unknownReply attempt req) (l.unknownReply attempt req) := by
  unfold Checker.unknownReply Ledger.unknownReply
  rw [h.isForeign]
  cases hinfo : c.reqs[req]? with
  | none =>
    simp only
    split_ifs with hforeign
    · exact h
    all_goals
      apply (h.adjust_same req Account.unknownReply _).of_fields
      intro info hinfo'
      rw [hinfo] at hinfo'
      cases hinfo'
  | some info =>
    simp only
    by_cases hforeign : c.mismatched attempt = true
    · rw [if_pos (.inr hforeign), if_pos hforeign]
      exact h
    rw [if_neg hforeign]
    by_cases hfinal : info.finalReply.isSome = true
    · rw [if_pos (.inl hfinal)]
      apply (h.adjust_same req Account.unknownReply _).of_fields
      intro info' hinfo'
      rw [hinfo] at hinfo'
      cases hinfo'
      exact if_pos hfinal
    · rw [if_neg (by simp [hfinal, hforeign])]
      apply Agrees.of_fields
      refine (h.put hinfo _ { info with unknownAttempts := info.unknownAttempts ++ [attempt] }
        ?_).of_records rfl
      simp [Account.unknownReply, ReqInfo.account, hfinal]

lemma resolve (h : Agrees c l) (initial : InventoryModel) (lastRestart step : ℕ) (req : String)
    (r : Resolution) :
    Agrees (c.resolve initial lastRestart step req r) (l.resolve req r) := by
  apply Agrees.of_fields
  unfold Checker.resolve
  cases hinfo : c.reqs[req]? with
  | none =>
    apply h.adjust_same req
    intro info hinfo'
    rw [hinfo] at hinfo'
    cases hinfo'
  | some info =>
    dsimp only
    have hkeep (hcond : ¬ ((r.kind = "COMMITTED" ∨ r.kind = "REJECTED") ∧
        info.finalReply = none ∧ info.unknownAttempts ≠ [])) :
        Agrees (c.put req { info with resolved := some r }) (l.adjust req (Account.resolve r)) := by
      apply h.put hinfo
      rw [Account.resolve, if_neg (by simpa [ReqInfo.account] using hcond)]
      rfl
    split
    · rename_i hkind
      split
      · rename_i f hfinal
        exact (hkeep (by simp [hfinal])).of_records (by simp)
      · rename_i hfinal
        split_ifs with hunknown
        · exact hkeep (by simp [hunknown])
        · refine (h.put hinfo _ _ ?_).of_records Checker.records_settle
          rw [Account.resolve, if_pos (by simp [ReqInfo.account, hkind, hfinal, hunknown])]
          rfl
    · rename_i hkind
      have hput := hkeep fun hcond => hkind hcond.1
      split_ifs
      · exact hput.of_records (by simp)
      · exact hput.of_records (by simp)
      · exact hput

/-- One event, recorded on both sides. -/
lemma step (h : Agrees c l) {initial : InventoryModel} {lastRestart : ℕ} {e : Event}
    (hok : c.step initial lastRestart e = .ok c') : Agrees c' (l.step e.event) := by
  unfold Checker.step at hok
  unfold Ledger.step
  cases he : e.event with
  | finalReply attempt req outcome txnId rd res =>
    rw [he] at hok
    exact h.finalReply hok
  | invoke attempt req key hash op =>
    rw [he] at hok
    cases hok
    exact h.invoke attempt req key hash op
  | unknownReply attempt req =>
    rw [he] at hok
    cases hok
    exact h.unknownReply attempt req
  | resolve req kind txnId rd res =>
    rw [he] at hok
    cases hok
    exact h.resolve initial lastRestart e.step req _
  | decision req txnId outcome ref =>
    rw [he] at hok
    cases hok
    exact h.update fun info => rfl
  | resultEvicted req =>
    rw [he] at hok
    cases hok
    exact h.update fun info => rfl
  | namespaceRetired ns =>
    rw [he] at hok
    cases hok
    exact ⟨h.accounts, h.owner, h.foreign, by rw [h.retired]⟩
  | admissionRefusal | expiredReply | crash | restart | checkpoint =>
    rw [he] at hok
    cases hok
    exact h

end Agrees

end CarolinaDB.Qualify
