import CarolinaDB.PageTree

/-!
# Walking the leaves

A path of child indices leads to a leaf. `At` splits the leaves of a tree at
the leaf a path leads to; the right neighbour of a path leads to the next leaf,
and descending to a position leaves only smaller entries behind.
-/
namespace CarolinaDB.PageTree

variable {P α : Type}

def leafAt : {n : ℕ} → Page P α n → List ℕ → Option (List α)
  | 0, es, _ => some es
  | _+1, cs, i :: path => (cs[i]?).bind fun c => leafAt c.2 path
  | _+1, _, [] => none

def leftmostPath : {n : ℕ} → Page P α n → List ℕ
  | 0, _ => []
  | _+1, cs => 0 :: ((List.head? cs).map fun c => leftmostPath c.2).getD []

/-- Step right below the deepest page of the path that has a following child. -/
def rightPath : {n : ℕ} → Page P α n → List ℕ → Option (List ℕ)
  | 0, _, _ => none
  | _+1, _, [] => none
  | _+1, cs, i :: path =>
    match (cs[i]?).bind fun c => rightPath c.2 path with
    | some path' => some (i :: path')
    | none => (cs[i+1]?).map fun d => (i+1) :: leftmostPath d.2

/-- The path leads to `leaf`, with `before` to its left and `after` to its right. -/
def At : {n : ℕ} → Page P α n → List ℕ → List (List α) → List α → List (List α) → Prop
  | 0, es, path, before, leaf, after => path = [] ∧ before = [] ∧ leaf = es ∧ after = []
  | n+1, cs, path, before, leaf, after =>
    ∃ (l : List (P × Page P α n)) (c : P × Page P α n) (r : List (P × Page P α n)) (path' : List ℕ)
      (b a : List (List α)), cs = l ++ c :: r ∧ path = l.length :: path' ∧ At c.2 path' b leaf a ∧
      before = l.flatMap (fun c => leaves c.2) ++ b ∧ after = a ++ r.flatMap (fun c => leaves c.2)

/-- Every inner page has a child. -/
def Full : {n : ℕ} → Page P α n → Prop
  | 0, _ => True
  | n+1, cs => cs ≠ [] ∧ ∀ c : P × Page P α n, c ∈ cs → Full c.2

variable {n : ℕ} {path : List ℕ} {before after : List (List α)} {leaf : List α}

lemma At.leaves_eq {p : Page P α n} (h : At p path before leaf after) :
    leaves p = before ++ leaf :: after := by
  induction n generalizing path before after with
  | zero =>
    obtain ⟨-, rfl, rfl, rfl⟩ := h
    rfl
  | succ n ih =>
    obtain ⟨l, c, r, path', b, a, rfl, rfl, hc, rfl, rfl⟩ := h
    rw [leaves_node, List.flatMap_append, List.flatMap_cons, ih hc]
    simp

lemma At.entries_eq {p : Page P α n} (h : At p path before leaf after) :
    entries p = before.flatten ++ leaf ++ after.flatten := by
  rw [entries, h.leaves_eq]
  simp

lemma At.leafAt_eq {p : Page P α n} (h : At p path before leaf after) :
    leafAt p path = some leaf := by
  induction n generalizing path before after with
  | zero =>
    obtain ⟨-, -, rfl, -⟩ := h
    rfl
  | succ n ih =>
    obtain ⟨l, c, r, path', b, a, rfl, rfl, hc, -, -⟩ := h
    simp [leafAt, ih hc]

/-- The leftmost path leads to the first leaf. -/
lemma at_leftmostPath {p : Page P α n} (hp : Full p) :
    ∃ leaf after, At p (leftmostPath p) [] leaf after := by
  induction n with
  | zero => exact ⟨p, [], rfl, rfl, rfl, rfl⟩
  | succ n ih =>
    obtain ⟨c, r, rfl⟩ := List.exists_cons_of_ne_nil hp.1
    obtain ⟨leaf, a, h⟩ := ih (hp.2 c (List.mem_cons_self ..))
    exact ⟨leaf, _, [], c, r, _, [], a, rfl, rfl, h, rfl, rfl⟩

/-- Without a leaf to the right there is no right path. -/
lemma At.rightPath_eq_none {p : Page P α n} (hp : Full p) (h : At p path before leaf []) :
    rightPath p path = none := by
  induction n generalizing path before with
  | zero => rfl
  | succ n ih =>
    obtain ⟨l, c, r, path', b, a, rfl, rfl, hc, -, hnil⟩ := h
    obtain ⟨rfl, hr⟩ := List.append_eq_nil_iff.mp hnil.symm
    have hr' : r = [] := by
      cases r with
      | nil => rfl
      | cons d r =>
        rw [List.flatMap_cons, List.append_eq_nil_iff] at hr
        obtain ⟨leaf', a', hd⟩ := at_leftmostPath (hp.2 d (by simp))
        have := hd.leaves_eq
        simp [hr.1] at this
    subst hr'
    have := ih (hp.2 c (by simp)) hc
    simp [rightPath, this]

/-- The right path leads to the next leaf. -/
lemma At.rightPath_eq_some {p : Page P α n} (hp : Full p) {next : List α}
    (h : At p path before leaf (next :: after)) :
    ∃ path', rightPath p path = some path' ∧ At p path' (before ++ [leaf]) next after := by
  induction n generalizing path before after with
  | zero => exact absurd h.2.2.2 (by simp)
  | succ n ih =>
    obtain ⟨l, c, r, path', b, a, rfl, rfl, hc, rfl, hafter⟩ := h
    have hcp := hp.2 c (by simp)
    cases a with
    | cons m a =>
      -- the next leaf is below the same child
      rw [List.cons_append, List.cons.injEq] at hafter
      obtain ⟨rfl, rfl⟩ := hafter
      obtain ⟨path₁, hright, hat⟩ := ih hcp hc
      refine ⟨l.length :: path₁, by simp [rightPath, hright], l, c, r, path₁, _, a, rfl, rfl, hat, ?_,
        rfl⟩
      simp
    | nil =>
      have hnone := hc.rightPath_eq_none hcp
      cases r with
      | nil => simp at hafter
      | cons d r =>
        obtain ⟨leaf', a', hd⟩ := at_leftmostPath (hp.2 d (by simp))
        rw [List.nil_append, List.flatMap_cons, hd.leaves_eq, List.nil_append, List.cons_append,
          List.cons.injEq] at hafter
        obtain ⟨rfl, rfl⟩ := hafter
        refine ⟨(l.length + 1) :: leftmostPath d.2, by simp [rightPath, hnone],
          l ++ [c], d, r, leftmostPath d.2, [], a', by simp, by simp, hd, ?_, rfl⟩
        simp [hc.leaves_eq]

variable [LinearOrder P]

/-- The path to the leaf a position belongs to; an inner page without a child stops it. -/
def descendPath : {n : ℕ} → Page P α n → P → Option (List ℕ)
  | 0, _, _ => some []
  | _+1, cs, q => (cs[childIndex cs q]?).bind fun c =>
      (descendPath c.2 q).map fun path => childIndex cs q :: path

section Order
variable {first : P} {pos : α → P} {lo hi : Bound P}

lemma Ordered.full {p : Page P α n} (h : Ordered first pos lo hi p) : Full p := by
  induction n generalizing lo hi with
  | zero => trivial
  | succ n ih => exact ⟨h.ne_nil, h.2.forall_mem fun _ _ _ hc => ih hc⟩

/-- Descending leaves smaller entries behind and greater ones to the right. -/
theorem Ordered.at_descendPath {p : Page P α n} (h : Ordered first pos lo hi p) {q : P}
    (hlo : lo ≤ Bound.of q) (hhi : Bound.of q < hi) :
    ∃ path before leaf after, descendPath p q = some path ∧ At p path before leaf after ∧
      (∀ e ∈ before.flatten, pos e < q) ∧ ∀ e ∈ after.flatten, q < pos e := by
  induction n generalizing lo hi with
  | zero => exact ⟨[], [], p, [], rfl, ⟨rfl, rfl, rfl, rfl⟩, by simp, by simp⟩
  | succ n ih =>
    obtain ⟨l, c, r, a, b, rfl, hlen, ha, hb, hc, hl, hr, -⟩ := h.2.route hlo hhi
    obtain ⟨path, bs, leaf, as, hpath, hat, hbs, has⟩ := ih hc ha hb
    refine ⟨l.length :: path, _, leaf, _, ?_, ⟨l, c, r, path, bs, as, rfl, rfl, hat, rfl, rfl⟩,
      ?_, ?_⟩
    · rw [descendPath, ← hlen]
      simp [hpath]
    · intro e he
      rw [List.flatten_append, List.mem_append] at he
      rcases he with he | he
      · rcases hl with ⟨rfl, -⟩ | hl
        · simp at he
        · exact Bound.of_lt_of.mp (((within_chain hl).2 e he).2.trans_le ha)
      · exact hbs e he
    · intro e he
      rw [List.flatten_append, List.mem_append] at he
      rcases he with he | he
      · exact has e he
      · rcases hr with ⟨rfl, -⟩ | hr
        · simp at he
        · exact Bound.of_lt_of.mp (hb.trans_le ((within_chain hr).2 e he).1)

end Order

end CarolinaDB.PageTree
