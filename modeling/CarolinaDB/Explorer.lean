import CarolinaDB.Loop

/-!
# The explicit-state explorer

Breadth-first search through the states of a model, whose actions are given as labelled
successors. The states, the node each was found from and their depths are pushed
together, so they are one list of nodes; the index of states seen is its set of states.
-/
namespace CarolinaDB.Models

structure Trace where
  steps : List String
  finalState : String

structure ModelReport where
  model : String
  bounds : String
  states : ℕ
  transitions : ℕ
  maxDepth : ℕ
  /-- The search stopped at the state budget. -/
  truncated : Bool
  violation : Option (String × Trace)

def ModelReport.passed (r : ModelReport) : Bool := r.violation.isNone && !r.truncated

section Paths

variable {S : Type} (next : S → List (String × S)) (init : S)

/-- The actions with these labels lead from the initial state to a state. -/
inductive Path : List String → S → Prop
  | nil : Path [] init
  | snoc {steps : List String} {s t : S} (label : String) :
      Path steps s → (label, t) ∈ next s → Path (steps ++ [label]) t

def Reachable (s : S) : Prop := ∃ steps, Path next init steps s

variable {next init}

lemma Reachable.invariant {Inv : S → Prop} (hinit : Inv init)
    (hstep : ∀ s label t, Inv s → (label, t) ∈ next s → Inv t) {s : S}
    (h : Reachable next init s) : Inv s := by
  obtain ⟨steps, hpath⟩ := h
  induction hpath with
  | nil => exact hinit
  | snoc _ _ hmem ih => exact hstep _ _ _ ih hmem

end Paths

section Models

variable {α : Type}

/-- An action that is enabled under a condition. -/
def whenever (enabled : Prop) [Decidable enabled] (action : α) : List α :=
  if enabled then [action] else []

@[simp] lemma mem_whenever {enabled : Prop} [Decidable enabled] {action x : α} :
    x ∈ whenever enabled action ↔ enabled ∧ x = action := by
  rw [whenever]
  split_ifs with h <;> simp [h]

/-- An invariant is checked part by part; the first one that fails is named. -/
def firstViolated : List (Bool × String) → Except String Unit
  | [] => .ok ()
  | (bad, message) :: rest => if bad then .error message else firstViolated rest

lemma firstViolated_eq_ok {checks : List (Bool × String)} (h : ∀ c ∈ checks, c.1 = false) :
    firstViolated checks = .ok () := by
  induction checks with
  | nil => rfl
  | cons c checks ih =>
    obtain ⟨bad, message⟩ := c
    obtain ⟨hbad, hrest⟩ := List.forall_mem_cons.mp h
    rw [firstViolated, if_neg (by simpa using hbad)]
    exact ih hrest

def label (action : String) (i : ℕ) : String := action ++ "(" ++ toString i ++ ")"

end Models

structure Node (S : Type) where
  state : S
  /-- The node it was found from, and the action. -/
  parent : Option (ℕ × String)
  depth : ℕ

structure Search (S : Type) where
  nodes : List (Node S)
  queue : List ℕ
  transitions : ℕ
  maxDepth : ℕ
  truncated : Bool

section Explore

variable {S : Type} [DecidableEq S]

/-- Labels from a node back to the root. -/
def stepsBack (nodes : List (Node S)) : ℕ → ℕ → List String
  | 0, _ => []
  | fuel + 1, i =>
    match nodes[i]?.bind (·.parent) with
    | some (p, label) => label :: stepsBack nodes fuel p
    | none => []

def traceOf (describe : S → String) (nodes : List (Node S)) (i : ℕ) : Trace :=
  ⟨(stepsBack nodes nodes.length i).reverse, (nodes[i]?.map (describe ·.state)).getD ""⟩

variable (model bounds : String) (next : S → List (String × S)) (init : S)
  (invariant : S → Except String Unit) (describe : S → String) (maxStates : ℕ)

def Search.report (s : Search S) (truncated : Bool) (violation : Option (String × Trace)) :
    ModelReport :=
  ⟨model, bounds, s.nodes.length, s.transitions, s.maxDepth, truncated, violation⟩

/-- The successors of node `i` at depth `d`. A violation ends the search. -/
def visit (i d : ℕ) : List (String × S) → Search S → Except ModelReport (Search S)
  | [], s => .ok s
  | (label, t) :: rest, s =>
    let s := { s with transitions := s.transitions + 1 }
    if t ∈ s.nodes.map (·.state) then visit i d rest s
    else
      let j := s.nodes.length
      let s := { s with
        nodes := s.nodes ++ [(⟨t, some (i, label), d + 1⟩ : Node S)], maxDepth := max s.maxDepth (d + 1) }
      match invariant t with
      | .error inv => .error (s.report model bounds false (some (inv, traceOf describe s.nodes j)))
      | .ok () =>
        if maxStates ≤ s.nodes.length then .ok { s with truncated := true, queue := [] }
        else visit i d rest { s with queue := s.queue ++ [j] }

/-- One pass of the search. The queue holds indices of nodes, so a missing node does not occur. -/
def pass (s : Search S) : Search S ⊕ ModelReport :=
  match s.queue with
  | [] => .inr (s.report model bounds s.truncated none)
  | i :: queue =>
    match s.nodes[i]? with
    | none => .inr (s.report model bounds s.truncated none)
    | some node =>
      match visit model bounds invariant describe maxStates i node.depth (next node.state)
        { s with queue := queue } with
      | .error r => .inr r
      | .ok s => if s.truncated then .inr (s.report model bounds s.truncated none) else .inl s

def explore (fuel : ℕ) : Option ModelReport :=
  let root : List (Node S) := [⟨init, none, 0⟩]
  match invariant init with
  | .error inv => some ⟨model, bounds, 1, 0, 0, false, some (inv, traceOf describe root 0)⟩
  | .ok () =>
    Loop.loop (pass model bounds next invariant describe maxStates) fuel ⟨root, [0], 0, 0, false⟩

end Explore

section Search

variable {S : Type} {next : S → List (String × S)} {init : S} {nodes : List (Node S)}

variable (next init nodes) in
/-- The nodes are a tree of distinct states, in the order of their depths. -/
structure SearchTree : Prop where
  root : nodes[0]? = some ⟨init, none, 0⟩
  child : ∀ (j : ℕ) (node : Node S), nodes[j]? = some node → 0 < j → ∃ i label up, node.parent = some (i, label) ∧
    i < j ∧ nodes[i]? = some up ∧ (label, node.state) ∈ next up.state ∧ node.depth = up.depth + 1
  distinct : (nodes.map (·.state)).Nodup
  sorted : ∀ (i j : ℕ) (a b : Node S), nodes[i]? = some a → nodes[j]? = some b → i ≤ j → a.depth ≤ b.depth

lemma SearchTree.path (h : SearchTree next init nodes) (j : ℕ) :
    ∀ node, nodes[j]? = some node → ∀ fuel, j < fuel →
      Path next init (stepsBack nodes fuel j).reverse node.state ∧
        (stepsBack nodes fuel j).length = node.depth := by
  -- along the links to earlier nodes
  induction j using Nat.strong_induction_on with
  | _ j ih =>
    intro node hnode fuel hfuel
    obtain ⟨fuel, rfl⟩ := Nat.exists_eq_succ_of_ne_zero (Nat.ne_of_gt (Nat.zero_lt_of_lt hfuel))
    rcases Nat.eq_zero_or_pos j with rfl | hj
    · obtain rfl := Option.some.inj (h.root.symm.trans hnode)
      simp only [stepsBack, hnode, Option.bind_some]
      exact ⟨.nil, rfl⟩
    · obtain ⟨i, label, up, hparent, hij, hup, hmem, hdepth⟩ := h.child j node hnode hj
      obtain ⟨hpath, hlength⟩ := ih i hij up hup fuel (by omega)
      simp only [stepsBack, hnode, Option.bind_some, hparent, List.reverse_cons, List.length_cons]
      exact ⟨hpath.snoc label hmem, by rw [hlength, hdepth]⟩

lemma SearchTree.reachable (h : SearchTree next init nodes) {node : Node S} (hmem : node ∈ nodes) :
    Reachable next init node.state := by
  obtain ⟨j, hj⟩ := List.mem_iff_getElem?.mp hmem
  exact ⟨_, (h.path j node hj _ j.lt_succ_self).1⟩

/-- A state is recorded at a depth of at most `d`. -/
def Recorded (nodes : List (Node S)) (t : S) (d : ℕ) : Prop :=
  ∃ (j : ℕ) (node : Node S), nodes[j]? = some node ∧ node.state = t ∧ node.depth ≤ d

lemma Recorded.append {t : S} {d : ℕ} (h : Recorded nodes t d) (more : List (Node S)) :
    Recorded (nodes ++ more) t d := by
  obtain ⟨j, node, hnode, hstate, hd⟩ := h
  refine ⟨j, node, ?_, hstate, hd⟩
  rw [List.getElem?_append_left (List.getElem?_eq_some_iff.mp hnode).1, hnode]

variable (next nodes) in
/-- The first `i` nodes have been expanded. -/
def Closed (i : ℕ) : Prop :=
  ∀ (k : ℕ) (node : Node S), k < i → nodes[k]? = some node → ∀ label t, (label, t) ∈ next node.state →
    Recorded nodes t (node.depth + 1)

/-- What is reached in at most `d` steps is recorded, if every node below depth `d` has been
expanded. -/
lemma SearchTree.recorded (h : SearchTree next init nodes) {i d : ℕ} (hclosed : Closed next nodes i)
    (hbelow : ∀ (j : ℕ) (node : Node S), nodes[j]? = some node → node.depth < d → j < i)
    {steps : List String} {t : S} (hpath : Path next init steps t) (hd : steps.length ≤ d) :
    Recorded nodes t steps.length := by
  induction hpath with
  | nil => exact ⟨0, _, h.root, rfl, le_rfl⟩
  | @snoc steps s t label _ hmem ih =>
    rw [List.length_append, List.length_singleton] at hd ⊢
    obtain ⟨j, node, hnode, rfl, hdepth⟩ := ih (by omega)
    obtain ⟨j', node', hnode', hstate, hdepth'⟩ :=
      hclosed j node (hbelow j node hnode (by omega)) hnode label t hmem
    exact ⟨j', node', hnode', hstate, by omega⟩

lemma getElem?_push {a node : Node S} {j : ℕ} (h : (nodes ++ [a])[j]? = some node) :
    nodes[j]? = some node ∨ j = nodes.length ∧ node = a := by
  rcases Nat.lt_or_ge j nodes.length with hj | hj
  · rw [List.getElem?_append_left hj] at h
    exact .inl h
  · rw [List.getElem?_append_right hj, List.getElem?_singleton] at h
    split_ifs at h with hzero
    exact .inr ⟨by omega, (Option.some.inj h).symm⟩

lemma SearchTree.push (h : SearchTree next init nodes) {i : ℕ} {up : Node S} {label : String} {t : S}
    (hup : nodes[i]? = some up) (hmem : (label, t) ∈ next up.state)
    (hnew : t ∉ nodes.map (·.state)) (hnear : ∀ node ∈ nodes, node.depth ≤ up.depth + 1) :
    SearchTree next init (nodes ++ [⟨t, some (i, label), up.depth + 1⟩]) := by
  have hi := (List.getElem?_eq_some_iff.mp hup).1
  have hkeep : ∀ {j a}, nodes[j]? = some a →
      (nodes ++ [⟨t, some (i, label), up.depth + 1⟩])[j]? = some a := fun ha => by
    rw [List.getElem?_append_left (List.getElem?_eq_some_iff.mp ha).1, ha]
  refine ⟨hkeep h.root, ?_, ?_, ?_⟩
  · intro j node hnode hj
    rcases getElem?_push hnode with hold | ⟨rfl, rfl⟩
    · obtain ⟨i', label', up', hparent, hlt, hup', hrest⟩ := h.child j node hold hj
      exact ⟨i', label', up', hparent, hlt, hkeep hup', hrest⟩
    · exact ⟨i, label, up, rfl, hi, hkeep hup, hmem, rfl⟩
  · rw [List.map_append, List.map_singleton, List.nodup_append]
    refine ⟨h.distinct, List.nodup_singleton _, ?_⟩
    intro a ha b hb hab
    rw [List.mem_singleton.mp hb] at hab
    change a = t at hab
    exact hnew (hab ▸ ha)
  · intro j k a b ha hb hjk
    rcases getElem?_push ha with ha | ⟨rfl, rfl⟩ <;> rcases getElem?_push hb with hb | ⟨rfl, rfl⟩
    · exact h.sorted j k a b ha hb hjk
    · exact hnear a (List.mem_of_getElem? ha)
    · have := (List.getElem?_eq_some_iff.mp hb).1
      omega
    · exact le_rfl

end Search

section Correctness

variable {S : Type} {next : S → List (String × S)} {init : S}
  {invariant : S → Except String Unit} {maxStates : ℕ}

variable (next init invariant maxStates) in
/-- What a report says of the model. -/
structure Accurate (describe : S → String) (r : ModelReport) : Prop where
  recorded : ∃ states : List S, states.Nodup ∧ states.length = r.states ∧
    (∀ s ∈ states, Reachable next init s) ∧ r.states ≤ max 2 maxStates
  passed : r.passed → ∀ s, Reachable next init s → invariant s = .ok ()
  /-- The trace leads to a violation, and no violation is nearer. -/
  violation : ∀ inv trace, r.violation = some (inv, trace) →
    ∃ s, Path next init trace.steps s ∧ invariant s = .error inv ∧ trace.finalState = describe s ∧
      ∀ steps t inv', Path next init steps t → invariant t = .error inv' →
        trace.steps.length ≤ steps.length

variable (next init invariant maxStates) in
/-- Between two passes the first `i` nodes have been expanded and the others wait in order. -/
structure Expanded (i : ℕ) (s : Search S) : Prop where
  tree : SearchTree next init s.nodes
  valid : ∀ node ∈ s.nodes, invariant node.state = .ok ()
  room : s.nodes.length < max 2 maxStates
  le : i ≤ s.nodes.length
  queue : s.queue = List.range' i (s.nodes.length - i)
  near : ∀ a : Node S, s.nodes[i]? = some a → ∀ node ∈ s.nodes, node.depth ≤ a.depth + 1
  closed : Closed next s.nodes i
  running : s.truncated = false

variable (next init invariant maxStates) in
/-- At most `k` passes can follow the next one. -/
def WithinBudget (k : ℕ) (s : Search S) : Prop :=
  ∃ i, k = max 2 maxStates - i ∧ Expanded next init invariant maxStates i s

variable (next init invariant maxStates) in
/-- While node `i` is being expanded, `rest` of its successors are to come. -/
structure Expanding (i : ℕ) (up : Node S) (rest : List (String × S)) (s : Search S) : Prop where
  tree : SearchTree next init s.nodes
  valid : ∀ node ∈ s.nodes, invariant node.state = .ok ()
  room : s.nodes.length < max 2 maxStates
  at_ : s.nodes[i]? = some up
  queue : s.queue = List.range' (i + 1) (s.nodes.length - (i + 1))
  near : ∀ node ∈ s.nodes, node.depth ≤ up.depth + 1
  closed : Closed next s.nodes i
  running : s.truncated = false
  actions : ∀ x ∈ rest, x ∈ next up.state
  seen : ∀ label t, (label, t) ∈ next up.state →
    (label, t) ∈ rest ∨ Recorded s.nodes t (up.depth + 1)

lemma tree_root : SearchTree next init [⟨init, none, 0⟩] := by
  refine ⟨rfl, ?_, List.nodup_singleton _, ?_⟩
  · intro j node hnode hj
    simp [Nat.ne_of_gt hj] at hnode
  · intro j k a b ha hb _
    simp only [List.getElem?_singleton] at ha hb
    split_ifs at ha hb
    cases ha
    cases hb
    exact le_rfl

lemma expanded_root (hok : invariant init = .ok ()) :
    Expanded next init invariant maxStates 0 ⟨[⟨init, none, 0⟩], [0], 0, 0, false⟩ := by
  refine ⟨tree_root, ?_, by simp, Nat.zero_le _, rfl, ?_, ?_, rfl⟩
  · intro node hnode
    rw [List.mem_singleton.mp hnode]
    exact hok
  · intro a _ node hnode
    rw [List.mem_singleton.mp hnode]
    exact Nat.zero_le _
  · intro k _ hk
    omega

variable {i : ℕ} {up : Node S} {rest : List (String × S)} {s : Search S}

lemma SearchTree.states (h : SearchTree next init s.nodes) : ∃ states : List S, states.Nodup ∧
    states.length = s.nodes.length ∧ ∀ t ∈ states, Reachable next init t := by
  refine ⟨s.nodes.map (·.state), h.distinct, List.length_map _, fun t ht => ?_⟩
  obtain ⟨node, hnode, rfl⟩ := List.mem_map.mp ht
  exact h.reachable hnode

/-- A new state that violates the invariant is a nearest one: every state of a smaller depth is
recorded already. -/
lemma Expanding.nearest (h : Expanding next init invariant maxStates i up rest s)
    {steps : List String} {t : S} {inv : String} (hpath : Path next init steps t)
    (hbad : invariant t = .error inv) : up.depth + 1 ≤ steps.length := by
  by_contra hlt
  have hbelow : ∀ (j : ℕ) (node : Node S), s.nodes[j]? = some node → node.depth < up.depth → j < i := by
    intro j node hnode hdepth
    by_contra hj
    have := h.tree.sorted i j up node h.at_ hnode (by omega)
    omega
  obtain ⟨j, node, hnode, rfl, -⟩ := h.tree.recorded h.closed hbelow hpath (by omega)
  rw [h.valid node (List.mem_of_getElem? hnode)] at hbad
  cases hbad

lemma Expanding.skip {label : String} {t : S}
    (h : Expanding next init invariant maxStates i up ((label, t) :: rest) s)
    (hold : t ∈ s.nodes.map (·.state)) :
    Expanding next init invariant maxStates i up rest
      { s with transitions := s.transitions + 1 } := by
  refine { h with
    actions := fun x hx => h.actions x (List.mem_cons_of_mem _ hx), seen := fun label' t' hmem => ?_ }
  rcases h.seen label' t' hmem with hin | hrec
  · rcases List.mem_cons.mp hin with heq | hin
    · obtain ⟨node, hnode, hstate⟩ := List.mem_map.mp hold
      obtain ⟨j, hj⟩ := List.mem_iff_getElem?.mp hnode
      obtain ⟨-, rfl⟩ := Prod.mk.inj heq
      exact .inr ⟨j, node, hj, hstate, h.near node hnode⟩
    · exact .inl hin
  · exact .inr hrec

lemma Expanding.push {label : String} {t : S} {n d : ℕ}
    (h : Expanding next init invariant maxStates i up ((label, t) :: rest) s)
    (hnew : t ∉ s.nodes.map (·.state)) (hok : invariant t = .ok ())
    (hroom : s.nodes.length + 1 < max 2 maxStates) :
    Expanding next init invariant maxStates i up rest { s with
      nodes := s.nodes ++ [⟨t, some (i, label), up.depth + 1⟩],
      queue := s.queue ++ [s.nodes.length], transitions := n, maxDepth := d } := by
  have hi := (List.getElem?_eq_some_iff.mp h.at_).1
  refine ⟨h.tree.push h.at_ (h.actions _ List.mem_cons_self) hnew h.near, ?_, ?_, ?_, ?_, ?_, ?_,
    h.running, fun x hx => h.actions x (List.mem_cons_of_mem _ hx), ?_⟩
  · intro node hnode
    rcases List.mem_append.mp hnode with hnode | hnode
    · exact h.valid node hnode
    · rw [List.mem_singleton.mp hnode]
      exact hok
  · simpa using hroom
  · rw [List.getElem?_append_left hi, h.at_]
  · have hsucc : s.nodes.length + 1 - (i + 1) = s.nodes.length - (i + 1) + 1 := by omega
    simp only [h.queue, List.length_append, List.length_singleton]
    rw [hsucc, List.range'_concat]
    congr 2
    omega
  · intro node hnode
    rcases List.mem_append.mp hnode with hnode | hnode
    · exact h.near node hnode
    · rw [List.mem_singleton.mp hnode]
  · intro k node hk hnode label' t' hmem
    rcases getElem?_push hnode with hnode | ⟨rfl, -⟩
    · exact (h.closed k node hk hnode label' t' hmem).append _
    · omega
  · intro label' t' hmem
    rcases h.seen label' t' hmem with hin | hrec
    · rcases List.mem_cons.mp hin with heq | hin
      · obtain ⟨-, rfl⟩ := Prod.mk.inj heq
        exact .inr ⟨s.nodes.length, _, List.getElem?_concat_length, rfl, le_rfl⟩
      · exact .inl hin
    · exact .inr (hrec.append _)

variable (model bounds : String) (describe : S → String)

lemma Expanding.report_violation {label : String} {t : S} {inv : String} {n d : ℕ}
    (h : Expanding next init invariant maxStates i up ((label, t) :: rest) s)
    (hnew : t ∉ s.nodes.map (·.state)) (hbad : invariant t = .error inv) :
    let nodes := s.nodes ++ [⟨t, some (i, label), up.depth + 1⟩]
    Accurate next init invariant maxStates describe
      (Search.report model bounds ⟨nodes, s.queue, n, d, s.truncated⟩ false
        (some (inv, traceOf describe nodes s.nodes.length))) := by
  intro nodes
  have htree := h.tree.push h.at_ (h.actions _ List.mem_cons_self) hnew h.near
  have hlast : nodes[s.nodes.length]? = some ⟨t, some (i, label), up.depth + 1⟩ :=
    List.getElem?_concat_length
  have hroom := h.room
  have hlength : nodes.length = s.nodes.length + 1 := by simp [nodes]
  refine ⟨?_, fun hp => by simp [ModelReport.passed, Search.report] at hp, ?_⟩
  · obtain ⟨states, hnodup, hlen, hreach⟩ := SearchTree.states (s := ⟨nodes, s.queue, n, d, s.truncated⟩) htree
    exact ⟨states, hnodup, hlen, hreach, by simp only [Search.report]; omega⟩
  · intro inv' trace hv
    obtain ⟨rfl, rfl⟩ := Prod.mk.inj (Option.some.inj hv)
    obtain ⟨hpath, hsteps⟩ := htree.path _ _ hlast nodes.length (by omega)
    refine ⟨t, hpath, hbad, by simp [traceOf, hlast], fun steps t' inv' hpath' hbad' => ?_⟩
    rw [traceOf, List.length_reverse, hsteps]
    exact h.nearest hpath' hbad'

lemma report_truncated {nodes : List (Node S)} {queue : List ℕ} {n d : ℕ}
    (htree : SearchTree next init nodes) (hlen : nodes.length ≤ max 2 maxStates) :
    Accurate next init invariant maxStates describe
      (Search.report model bounds ⟨nodes, queue, n, d, true⟩ true none) := by
  obtain ⟨states, hnodup, hlength, hreach⟩ := SearchTree.states (s := ⟨nodes, queue, n, d, true⟩) htree
  exact ⟨⟨states, hnodup, hlength, hreach, hlen⟩,
    fun hp => by simp [ModelReport.passed, Search.report] at hp, fun _ _ hv => by cases hv⟩

lemma Expanded.report_complete (h : Expanded next init invariant maxStates s.nodes.length s) :
    Accurate next init invariant maxStates describe (s.report model bounds s.truncated none) := by
  obtain ⟨states, hnodup, hlen, hreach⟩ := h.tree.states
  have hroom := h.room
  refine ⟨⟨states, hnodup, hlen, hreach, hroom.le⟩, fun _ t ht => ?_, fun _ _ hv => by cases hv⟩
  obtain ⟨steps, hpath⟩ := ht
  obtain ⟨j, node, hnode, rfl, -⟩ := h.tree.recorded h.closed
    (fun j node hnode _ => (List.getElem?_eq_some_iff.mp hnode).1) hpath le_rfl
  exact h.valid node (List.mem_of_getElem? hnode)

variable [DecidableEq S]

/-- Expanding a node: a violation is reported truthfully, and otherwise the search goes on, or stops
at the budget. -/
lemma Expanding.visit (h : Expanding next init invariant maxStates i up rest s) :
    match visit model bounds invariant describe maxStates i up.depth rest s with
    | .error r => Accurate next init invariant maxStates describe r
    | .ok s' => Expanding next init invariant maxStates i up [] s' ∨ s'.truncated = true ∧
        Accurate next init invariant maxStates describe (s'.report model bounds true none) := by
  -- over the successors that are left
  induction rest generalizing s with
  | nil => exact .inl h
  | cons x rest ih =>
    obtain ⟨label, t⟩ := x
    rw [Models.visit]
    by_cases hold : t ∈ s.nodes.map (·.state)
    · simp only [if_pos hold]
      exact ih (h.skip hold)
    · simp only [if_neg hold]
      cases hinv : invariant t with
      | error inv => exact h.report_violation model bounds describe hold hinv
      | ok _ =>
        dsimp only
        have hroom := h.room
        by_cases hfull : maxStates ≤
            (s.nodes ++ [(⟨t, some (i, label), up.depth + 1⟩ : Node S)]).length
        · rw [if_pos hfull]
          refine .inr ⟨rfl, report_truncated model bounds describe
            (h.tree.push h.at_ (h.actions _ List.mem_cons_self) hold h.near) ?_⟩
          rw [List.length_append, List.length_singleton]
          omega
        · rw [if_neg hfull]
          rw [List.length_append, List.length_singleton] at hfull
          exact ih (h.push hold hinv (by omega))

/-- One pass ends the search with an accurate report or expands one more node. -/
lemma WithinBudget.pass {k : ℕ} (h : WithinBudget next init invariant maxStates k s) :
    (∃ r, pass model bounds next invariant describe maxStates s = .inr r ∧
      Accurate next init invariant maxStates describe r) ∨
    ∃ k' s', k' < k ∧ pass model bounds next invariant describe maxStates s = .inl s' ∧
      WithinBudget next init invariant maxStates k' s' := by
  obtain ⟨i, rfl, h⟩ := h
  rw [Models.pass]
  rcases Nat.eq_or_lt_of_le h.le with rfl | hlt
  · rw [h.queue, Nat.sub_self]
    exact .inl ⟨_, rfl, h.report_complete model bounds describe⟩
  · obtain ⟨k, hk⟩ : ∃ k, s.nodes.length - i = k + 1 := ⟨s.nodes.length - i - 1, by omega⟩
    have hat : s.nodes[i]? = some s.nodes[i] := List.getElem?_eq_getElem hlt
    have hstart : Expanding next init invariant maxStates i s.nodes[i] (next s.nodes[i].state)
        { s with queue := List.range' (i + 1) k } :=
      { h with
        at_ := hat, near := h.near _ hat, actions := fun _ hx => hx, seen := fun _ _ hx => .inl hx
        queue := by
          rw [show s.nodes.length - (i + 1) = k by omega] }
    have hvisit := hstart.visit model bounds describe
    rw [h.queue, hk, List.range'_succ]
    simp only [hat]
    split at hvisit
    next r _ =>
      exact .inl ⟨r, rfl, hvisit⟩
    next s' _ =>
      rcases hvisit with hdone | ⟨htrunc, hreport⟩
      · have hi := (List.getElem?_eq_some_iff.mp hdone.at_).1
        rw [if_neg (by rw [hdone.running]; decide)]
        have hroom := h.room
        refine .inr ⟨_, s', by omega, rfl, i + 1, rfl, hdone.tree, hdone.valid, hdone.room, hi, hdone.queue, ?_, ?_,
          hdone.running⟩
        · intro a ha node hnode
          have := hdone.tree.sorted i (i + 1) _ a hdone.at_ ha (by omega)
          have := hdone.near node hnode
          omega
        · intro j node hj hnode label t hmem
          rcases Nat.lt_succ_iff_lt_or_eq.mp hj with hj | rfl
          · exact hdone.closed j node hj hnode label t hmem
          · obtain rfl := Option.some.inj (hdone.at_.symm.trans hnode)
            exact (hdone.seen label t hmem).resolve_left List.not_mem_nil
      · rw [if_pos htrunc, htrunc]
        exact .inl ⟨_, rfl, hreport⟩

end Correctness

end CarolinaDB.Models
