import CarolinaDB.Inventory

/-!
# The history checker

An observable history is replayed against the inventory oracle. Unknown replies are explored
both ways, committed and not committed, in branches; what no branch explains is a finding
against a rule.
-/
namespace CarolinaDB.Qualify

inductive HistoryEvent
  | invoke (attempt : ℕ) (req : String) (requestKey : Bytes) (requestHash : Hash256) (op : W1Op)
  | admissionRefusal (attempt : ℕ) (req code : String)
  | finalReply (attempt : ℕ) (req outcome : String) (txnId : Bytes)
      (receiptDigest resultDigest : Hash256)
  | unknownReply (attempt : ℕ) (req : String)
  | expiredReply (attempt : ℕ) (req kind : String)
  | decision (req : String) (txnId : Bytes) (outcome : String) (decisionRef : Hash256)
  | crash (faultPoint : String) (nth : ℕ)
  | restart (homeEpoch : ℕ)
  | checkpoint
  | resolve (req kind : String) (txnId : Bytes) (receiptDigest resultDigest : Option Hash256)
  | resultEvicted (req : String)
  | namespaceRetired (ns : Bytes)
  deriving DecidableEq

structure Event where
  step : ℕ
  event : HistoryEvent
  deriving DecidableEq

inductive Rule
  | c01 | c02 | c03 | c04 | c05 | c06 | c07 | c08 | c09 | c10 | c11 | c12 | c13 | c14
  deriving DecidableEq, Repr

inductive Status
  | pass | fail | inconclusive | notRun | notApplicable
  deriving DecidableEq, Repr

/-- What the checker reports. -/
inductive Finding
  | changedContentExecuted (step attempt : ℕ) (req : String)
  | neverInvoked (step : ℕ) (req : String)
  | executedInRetiredNamespace (step : ℕ) (req : String)
  | executedAfterEviction (step : ℕ) (req : String)
  | differentRetry (step : ℕ) (req : String)
  | executedAfterUnknown (step : ℕ) (req : String)
  | wrongResult (step : ℕ) (req : String) (op : W1Op)
  | brokenInvariant (step : ℕ) (inv req : String)
  | unknownOutcome (step : ℕ) (outcome : String)
  | unexplained (step : ℕ) (req outcome : String) (op : W1Op) (expected : Expected)
  | differentReceipt (step : ℕ) (req : String)
  | contradicted (step : ℕ) (req kind : String) (before : ℕ)
  | wrongResolvedResult (step : ℕ) (req : String)
  | lostFinal (step : ℕ) (req kind : String)
  | absentAssumed (step : ℕ) (req : String)
  | noDecision (req outcome : String)
  | resolvesOtherwise (req outcome kind : String)
  | neverResolved (req outcome : String)
  | stateUnexplained (candidates : ℕ) (diff : List InventoryModel.Difference)
  | finalInvariant (inv : String)

namespace Finding

def rule : Finding → Rule
  | changedContentExecuted _ _ _ | differentRetry _ _ => .c03
  | neverInvoked _ _ | absentAssumed _ _ => .c02
  | executedInRetiredNamespace _ _ | executedAfterEviction _ _ => .c13
  | executedAfterUnknown _ _ | contradicted _ _ _ _ => .c14
  | wrongResult _ _ _ | unknownOutcome _ _ | unexplained _ _ _ _ _ | wrongResolvedResult _ _ => .c04
  | brokenInvariant _ _ _ | finalInvariant _ => .c05
  | differentReceipt _ _ | lostFinal _ _ _ | noDecision _ _ | resolvesOtherwise _ _ _
  | neverResolved _ _ => .c01
  -- Effects that are in the final state alone have no decision; otherwise one was lost.
  | stateUnexplained _ diff => if diff.any (·.extra) then .c02 else .c01

end Finding

structure Branch where
  model : InventoryModel
  /-- Requests whose unknown attempt this branch assumed committed. -/
  assumedCommitted : Finset String
  /-- The contract result expected for each assumed commit. -/
  assumedResults : FiniteMap String (Option Hash256)

def Branch.root (initial : InventoryModel) : Branch := ⟨initial, ∅, ∅⟩

/-- The reply that made a request final. -/
structure FinalRef where
  outcome : String
  txnId : Bytes
  receiptDigest : Hash256
  resultDigest : Hash256
  deriving DecidableEq

/-- An answer to a resolve. -/
structure Resolution where
  kind : String
  txnId : Bytes
  receiptDigest : Option Hash256
  resultDigest : Option Hash256
  deriving DecidableEq

/-- The final reply that a resolution stands for. -/
def Resolution.asFinal (r : Resolution) : FinalRef :=
  ⟨r.kind, r.txnId, r.receiptDigest.getD Hash256.zero, r.resultDigest.getD Hash256.zero⟩

structure ReqInfo where
  requestKey : Bytes
  op : W1Op
  finalReply : Option FinalRef
  unknownAttempts : List ℕ
  resolved : Option Resolution
  evicted : Bool
  decision : Option (Bytes × String)

structure CheckerInput where
  history : List Event
  initial : InventoryModel
  finalState : Option InventoryModel
  budget : ℕ

instance transCmpBytes : Std.TransCmp (@compare Bytes LinearOrder.toOrd) := transCmp_compare

structure Checker where
  fails : List Finding
  reqs : FiniteMap String ReqInfo
  keyOwner : FiniteMap Bytes (String × Hash256)
  /-- The request of an attempt, and whether its content differs from that of its key. -/
  attempts : FiniteMap ℕ (String × Bool)
  retired : Finset Bytes
  branches : List Branch

/-- The namespace within a request key. -/
def namespaceOf (key : Bytes) : Bytes := (key.drop 16).take 16

namespace Branch

/-- Whether the branch explains the first final reply: the findings, and the branch after it. -/
def judge (step : ℕ) (req : String) (op : W1Op) (f : FinalRef) (b : Branch) :
    List Finding × Option Branch :=
  match b.model.evaluate op with
  | (.committed v, some post) =>
    if f.outcome = "COMMITTED" then
      ((if (Expected.committed v).resultDigest ≠ some f.resultDigest then [.wrongResult step req op]
          else []) ++
        (match post.invariants with
          | .error inv => [.brokenInvariant step inv req]
          | .ok () => []),
        some { b with model := post })
    else if f.outcome = "REJECTED" then ([], none)
    else ([.unknownOutcome step f.outcome], none)
  | _ =>
    if f.outcome = "REJECTED" then ([], some b)
    else if f.outcome = "COMMITTED" then ([], none)
    else ([.unknownOutcome step f.outcome], none)

/-- An unknown reply leaves the branch as it is, and if the contract commits also gives the
branch in which the effect happened. -/
def fork (req : String) (op : W1Op) (b : Branch) : List Branch :=
  match b.model.evaluate op with
  | (.committed v, some post) =>
    [b, ⟨post, insert req b.assumedCommitted,
      b.assumedResults.insert req (Expected.committed v).resultDigest⟩]
  | _ => [b]

/-- The resolved result must be the one expected. -/
def checkResult (step : ℕ) (req : String) (r : Resolution) (b : Branch) : List Finding :=
  match b.assumedResults[req]?, r.resultDigest with
  | some (some expected), some actual =>
    if expected ≠ actual then [.wrongResolvedResult step req] else []
  | _, _ => []

end Branch

namespace Checker

def start (initial : InventoryModel) : Checker := ⟨[], ∅, ∅, ∅, ∅, [.root initial]⟩

def fail (c : Checker) (fs : List Finding) : Checker := { c with fails := c.fails ++ fs }

def failIf (c : Checker) (cond : Prop) [Decidable cond] (f : Finding) : Checker :=
  if cond then c.fail [f] else c

def put (c : Checker) (req : String) (info : ReqInfo) : Checker :=
  { c with reqs := c.reqs.insert req info }

def mismatched (c : Checker) (attempt : ℕ) : Bool :=
  match c.attempts[attempt]? with
  | some (_, m) => m
  | none => false

/-- The branches that stay. If none does, the checker starts over to report what follows. -/
def retain (c : Checker) (initial : InventoryModel) (p : Branch → Bool) (f : Finding) : Checker :=
  match c.branches.filter p with
  | [] => { c.fail [f] with branches := [.root initial] }
  | bs => { c with branches := bs }

def invoke (c : Checker) (attempt : ℕ) (req : String) (requestKey : Bytes) (requestHash : Hash256)
    (op : W1Op) : Checker :=
  let (keyOwner, mismatched) :=
    match c.keyOwner[requestKey]? with
    | some (_, h) => (c.keyOwner, decide (h ≠ requestHash))
    | none => (c.keyOwner.insert requestKey (req, requestHash), false)
  { c with
    keyOwner
    attempts := c.attempts.insert attempt (req, mismatched)
    reqs := match c.reqs[req]? with
      | some _ => c.reqs
      | none => c.reqs.insert req ⟨requestKey, op, none, [], none, false, none⟩ }

/-- The first final reply: the oracle decides what the contract allows. -/
def firstReply (c : Checker) (step : ℕ) (req : String) (info : ReqInfo) (f : FinalRef) :
    CoreResult Checker :=
  let judged := c.branches.map (Branch.judge step req info.op f)
  let c := c.fail (judged.flatMap (·.1))
  let next := judged.filterMap (·.2)
  if next.isEmpty then
    match c.branches with
    | [] => .error .panicked
    | b :: _ =>
      .ok ((c.fail [.unexplained step req f.outcome info.op (b.model.evaluate info.op).1]).put req
        { info with finalReply := some f })
  else .ok ({ c with branches := next }.put req { info with finalReply := some f })

def finalReply (c : Checker) (step attempt : ℕ) (req : String) (f : FinalRef) :
    CoreResult Checker :=
  if c.mismatched attempt then .ok (c.fail [.changedContentExecuted step attempt req])
  else
    match c.reqs[req]? with
    | none => .ok (c.fail [.neverInvoked step req])
    | some info =>
      -- The namespace is cut out of the key.
      if info.requestKey.length < 32 then .error .panicked
      else
        let c := c.failIf (namespaceOf info.requestKey ∈ c.retired)
          (.executedInRetiredNamespace step req)
        let c := c.failIf (info.evicted = true) (.executedAfterEviction step req)
        match info.finalReply with
        | some old => .ok (c.failIf (old ≠ f) (.differentRetry step req))
        | none =>
          (c.failIf (info.unknownAttempts ≠ [] ∧ info.resolved = none)
            (.executedAfterUnknown step req)).firstReply step req info f

def unknownReply (c : Checker) (attempt : ℕ) (req : String) : Checker :=
  match c.reqs[req]? with
  | none => c
  | some info =>
    if info.finalReply.isSome ∨ c.mismatched attempt then c
    else
      { c with branches := c.branches.flatMap (Branch.fork req info.op) }.put req
        { info with unknownAttempts := info.unknownAttempts ++ [attempt] }

/-- Durable evidence decides an unknown attempt. -/
def settle (c : Checker) (initial : InventoryModel) (step : ℕ) (req : String) (info : ReqInfo)
    (r : Resolution) : Checker :=
  let committed : Bool := r.kind = "COMMITTED"
  let c := c.retain initial (fun b => decide (req ∈ b.assumedCommitted) == committed)
    (.contradicted step req r.kind c.branches.length)
  let c := if committed then c.fail (c.branches.flatMap (Branch.checkResult step req r)) else c
  c.put req { info with finalReply := some r.asFinal }

def resolve (c : Checker) (initial : InventoryModel) (lastRestart step : ℕ) (req : String)
    (r : Resolution) : Checker :=
  match c.reqs[req]? with
  | none => c
  | some info =>
    let info := { info with resolved := some r }
    if r.kind = "COMMITTED" ∨ r.kind = "REJECTED" then
      match info.finalReply with
      | some f =>
        (c.put req info).failIf
          (f.outcome ≠ r.kind ∨ f.txnId ≠ r.txnId ∨ some f.receiptDigest ≠ r.receiptDigest)
          (.differentReceipt step req)
      | none =>
        if info.unknownAttempts = [] then c.put req info else c.settle initial step req info r
    else if r.kind = "ABSENT" ∨ r.kind = "PENDING" then
      let c := (c.put req info).failIf (info.finalReply.isSome ∧ lastRestart < step)
        (.lostFinal step req r.kind)
      if r.kind = "ABSENT" then
        c.retain initial (fun b => decide (req ∉ b.assumedCommitted)) (.absentAssumed step req)
      else c
    else c.put req info

def update (c : Checker) (req : String) (f : ReqInfo → ReqInfo) : Checker :=
  match c.reqs[req]? with
  | some info => c.put req (f info)
  | none => c

def step (initial : InventoryModel) (lastRestart : ℕ) (c : Checker) (e : Event) :
    CoreResult Checker :=
  match e.event with
  | .invoke attempt req requestKey requestHash op =>
    .ok (c.invoke attempt req requestKey requestHash op)
  | .finalReply attempt req outcome txnId receiptDigest resultDigest =>
    c.finalReply e.step attempt req ⟨outcome, txnId, receiptDigest, resultDigest⟩
  | .unknownReply attempt req => .ok (c.unknownReply attempt req)
  | .decision req txnId outcome _ =>
    .ok (c.update req fun info => { info with decision := some (txnId, outcome) })
  | .resolve req kind txnId receiptDigest resultDigest =>
    .ok (c.resolve initial lastRestart e.step req ⟨kind, txnId, receiptDigest, resultDigest⟩)
  | .resultEvicted req => .ok (c.update req fun info => { info with evicted := true })
  | .namespaceRetired ns => .ok { c with retired := insert ns c.retired }
  | .admissionRefusal _ _ _ | .expiredReply _ _ _ | .crash _ _ | .restart _ | .checkpoint => .ok c

/-- The events one after the other, with the number of branches explored. The last component is
the step at which the budget was exhausted. -/
def scan (input : CheckerInput) (lastRestart : ℕ) :
    List Event → ℕ → Checker → CoreResult (Checker × ℕ × Option ℕ)
  | [], explored, c => .ok (c, explored, none)
  | e :: es, explored, c =>
    let explored := explored + c.branches.length
    if input.budget < explored then .ok (c, explored, some e.step)
    else do
      let c ← c.step input.initial lastRestart e
      scan input lastRestart es explored c

/-- A final request has a decision and resolves to it after recovery. -/
def checkRequest (lastRestart : ℕ) (req : String) (info : ReqInfo) : List Finding :=
  match info.finalReply with
  | none => []
  | some f =>
    (if info.decision = none then [.noDecision req f.outcome] else []) ++
    (if lastRestart = 0 then []
      else
        match info.resolved with
        | none => [.neverResolved req f.outcome]
        | some r =>
          if r.kind = f.outcome then []
          -- The tombstone of an evicted result keeps the receipt digest.
          else if r.kind = "EXPIRED" ∧ info.evicted = true ∧
              r.receiptDigest = some f.receiptDigest then []
          else [.resolvesOtherwise req f.outcome r.kind])

/-- The final state must be that of a branch. -/
def matchFinalState (c : Checker) (fs : InventoryModel) : CoreResult (List Finding) :=
  if c.branches.any fun b => decide (b.model = fs) then .ok []
  else
    match c.branches with
    | [] => .error .panicked
    | b :: _ => .ok [.stateUnexplained c.branches.length (b.model.diff fs)]

def checkFinalState (c : Checker) : Option InventoryModel → CoreResult (List Finding)
  | none => .ok []
  | some fs => do
    let unexplained ← c.matchFinalState fs
    .ok (unexplained ++
      match fs.invariants with
      | .error inv => [.finalInvariant inv]
      | .ok () => [])

def endOfHistory (input : CheckerInput) (lastRestart : ℕ) (c : Checker) :
    CoreResult (List Finding) := do
  let state ← c.checkFinalState input.finalState
  .ok (c.fails ++ (c.reqs.toList.flatMap fun (req, info) => checkRequest lastRestart req info) ++
    state)

end Checker

/-- The step of the last restart, 0 if there is none. -/
def lastRestartStep (history : List Event) : ℕ :=
  history.foldl (fun last e => match e.event with
    | .restart _ => e.step
    | _ => last) 0

structure CheckResult where
  rule : Rule
  status : Status
  findings : List Finding

def localRules : List Rule := [.c01, .c02, .c03, .c04, .c05, .c13, .c14]

/-- Rules about capabilities the local profile does not enable. -/
def otherRules : List Rule := [.c06, .c07, .c08, .c09, .c10, .c11, .c12]

def report (fails : List Finding) (rule : Rule) : CheckResult :=
  match fails.filter fun f => f.rule = rule with
  | [] => ⟨rule, .pass, []⟩
  | fs => ⟨rule, .fail, fs⟩

def localResults (input : CheckerInput) (lastRestart : ℕ) (c : Checker) :
    Option ℕ → CoreResult (List CheckResult)
  | some _ => .ok (localRules.map fun rule => ⟨rule, .inconclusive, []⟩)
  | none => do
    let fails ← c.endOfHistory input lastRestart
    .ok (localRules.map (report fails))

def check (input : CheckerInput) : CoreResult (List CheckResult) := do
  let lastRestart := lastRestartStep input.history
  let (c, _, exhausted) ← Checker.scan input lastRestart input.history 0 (.start input.initial)
  let results ← localResults input lastRestart c exhausted
  .ok (results ++ otherRules.map fun rule => ⟨rule, .notApplicable, []⟩)

/-- All seven local rules pass. -/
def passes (input : CheckerInput) : Bool :=
  match check input with
  | .ok results => results.all fun r => r.rule ∉ localRules || r.status = .pass
  | .error _ => false

end CarolinaDB.Qualify
