import Mathlib

/-!
# Search trees of pages

Trees of uniform height whose leaves hold entries ordered by a position and
whose inner pages hold children behind separators. The height is an index of
the type, so every leaf of a tree is at the same depth. `Ordered` says that the
separators bound their subtrees; `Chain.route` is the one-hole context through
which searches and updates go down.
-/
namespace CarolinaDB.PageTree

variable {P α β : Type}

/-- A page of height `n`: entries in a leaf, separated children above. -/
abbrev Page (P α : Type) : ℕ → Type
  | 0 => List α
  | n+1 => List (P × Page P α n)

def leaves : {n : ℕ} → Page P α n → List (List α)
  | 0, es => [es]
  | _+1, cs => List.flatMap (fun c => leaves c.2) cs

def entries {n : ℕ} (p : Page P α n) : List α := (leaves p).flatten

@[simp] lemma leaves_leaf (es : Page P α 0) : leaves es = [es] := rfl

@[simp] lemma entries_leaf (es : Page P α 0) : entries es = es := by
  simp [entries]

lemma leaves_node {n : ℕ} (cs : List (P × Page P α n)) :
    leaves (n := n+1) cs = cs.flatMap fun c => leaves c.2 := rfl

lemma entries_node {n : ℕ} (cs : List (P × Page P α n)) :
    entries (n := n+1) cs = cs.flatMap fun c => entries c.2 := by
  induction cs with
  | nil => rfl
  | cons c cs ih =>
    rw [List.flatMap_cons, ← ih, entries, leaves_node, List.flatMap_cons, List.flatten_append]
    rfl

/-- Positions with both ends added. -/
abbrev Bound (P : Type) := WithBot (WithTop P)

def Bound.of (p : P) : Bound P := ((p : WithTop P) : WithBot (WithTop P))

/-- Consecutive separators bound the children between them; the first one is not consulted. -/
def Chain (Q : Bound P → Bound P → β → Prop) : Bound P → Bound P → List (P × β) → Prop
  | _, _, [] => False
  | lo, hi, [c] => Q lo hi c.2
  | lo, hi, c :: d :: cs => Q lo (Bound.of d.1) c.2 ∧ Chain Q (Bound.of d.1) hi (d :: cs)

namespace Chain
variable {Q : Bound P → Bound P → β → Prop} {lo hi : Bound P}

lemma ne_nil {cs : List (P × β)} (h : Chain Q lo hi cs) : cs ≠ [] := by
  rintro rfl
  exact h

/-- Only the separators after the first one matter. -/
lemma head_irrel {s s' : P} {b : β} {cs : List (P × β)} (h : Chain Q lo hi ((s, b) :: cs)) :
    Chain Q lo hi ((s', b) :: cs) := by
  cases cs with
  | nil => exact h
  | cons d cs => exact h

/-- Two chains meet at the first separator of the second one. -/
lemma append {l m : List (P × β)} {s : P} {b : β} :
    Chain Q lo hi (l ++ (s, b) :: m) ↔
      (l = [] ∧ Chain Q lo hi ((s, b) :: m)) ∨
        (Chain Q lo (Bound.of s) l ∧ Chain Q (Bound.of s) hi ((s, b) :: m)) := by
  induction l generalizing lo with
  | nil => simp [Chain]
  | cons c l ih =>
    cases l with
    | nil => simp [Chain]
    | cons d l =>
      rw [List.cons_append, List.cons_append]
      simp only [Chain]
      rw [← List.cons_append, ih]
      simp [and_assoc]

/-- A child goes in front of a chain that starts where the child ends. -/
lemma cons {c : P × β} {cs : List (P × β)} {s : P} (hs : cs.head?.map Prod.fst = some s)
    (hc : Q lo (Bound.of s) c.2) (h : Chain Q (Bound.of s) hi cs) : Chain Q lo hi (c :: cs) := by
  cases cs with
  | nil => simp at hs
  | cons d cs =>
    simp only [List.head?_cons, Option.map_some, Option.some.injEq] at hs
    subst hs
    exact ⟨hc, h⟩

lemma forall_mem {R : β → Prop} (hQ : ∀ a b c, Q a b c → R c) {cs : List (P × β)}
    (h : Chain Q lo hi cs) : ∀ c ∈ cs, R c.2 := by
  induction cs generalizing lo with
  | nil => simp
  | cons c cs ih =>
    intro e he
    cases cs with
    | nil =>
      rw [List.mem_singleton] at he
      exact he ▸ hQ _ _ _ h
    | cons d cs =>
      rcases List.mem_cons.mp he with rfl | he
      · exact hQ _ _ _ h.1
      · exact ih h.2 e he

end Chain

variable [LinearOrder P]

@[simp] lemma Bound.of_le_of {p q : P} : Bound.of p ≤ Bound.of q ↔ p ≤ q := by
  simp [Bound.of]

@[simp] lemma Bound.of_lt_of {p q : P} : Bound.of p < Bound.of q ↔ p < q := by
  simp [Bound.of]

@[simp] lemma Bound.of_lt_top {p : P} : Bound.of p < (⊤ : Bound P) := by
  rw [Bound.of, ← WithBot.coe_top, WithBot.coe_lt_coe]
  exact WithTop.coe_lt_top p

/-- The child a position belongs to: past every separator that is not above it. -/
def childIndex (cs : List (P × β)) (p : P) : ℕ :=
  (cs.tail.takeWhile fun c => c.1 ≤ p).length

/-- A list of entries is increasing and lies between the bounds. -/
def Within (pos : α → P) (lo hi : Bound P) (es : List α) : Prop :=
  es.Pairwise (fun a b => pos a < pos b) ∧ ∀ e ∈ es, lo ≤ Bound.of (pos e) ∧ Bound.of (pos e) < hi

lemma Within.append {pos : α → P} {lo mid hi : Bound P} {as bs : List α}
    (ha : Within pos lo mid as) (hb : Within pos mid hi bs) (hlo : lo ≤ mid) (hhi : mid ≤ hi) :
    Within pos lo hi (as ++ bs) := by
  refine ⟨List.pairwise_append.mpr ⟨ha.1, hb.1, fun a hma b hmb => ?_⟩, fun e he => ?_⟩
  · exact Bound.of_lt_of.mp ((ha.2 a hma).2.trans_le (hb.2 b hmb).1)
  · rcases List.mem_append.mp he with he | he
    · exact ⟨(ha.2 e he).1, (ha.2 e he).2.trans_le hhi⟩
    · exact ⟨hlo.trans (hb.2 e he).1, (hb.2 e he).2⟩

namespace Chain
variable {Q : Bound P → Bound P → β → Prop} {lo hi : Bound P}

lemma lt (hQ : ∀ a b c, Q a b c → a < b) {cs : List (P × β)} (h : Chain Q lo hi cs) : lo < hi := by
  induction cs generalizing lo with
  | nil => exact h.elim
  | cons c cs ih =>
    cases cs with
    | nil => exact hQ _ _ _ h
    | cons d cs => exact (hQ _ _ _ h.1).trans (ih h.2)

/-- What the children hold, in order, is increasing and between the outer bounds. -/
lemma within {pos : α → P} {f : β → List α} (hlt : ∀ a b c, Q a b c → a < b)
    (hQ : ∀ a b c, Q a b c → Within pos a b (f c)) {cs : List (P × β)} (h : Chain Q lo hi cs) :
    Within pos lo hi (cs.flatMap fun c => f c.2) := by
  induction cs generalizing lo with
  | nil => exact h.elim
  | cons c cs ih =>
    cases cs with
    | nil => simpa using hQ _ _ _ h
    | cons d cs =>
      rw [List.flatMap_cons]
      exact (hQ _ _ _ h.1).append (ih h.2) (hlt _ _ _ h.1).le (h.2.lt hlt).le

/-- A position within the bounds goes to a child whose own bounds contain it; any chain over
those bounds may take the child's place. -/
theorem route {cs : List (P × β)} (h : Chain Q lo hi cs) {p : P}
    (hlo : lo ≤ Bound.of p) (hhi : Bound.of p < hi) :
    ∃ pre c post a b, cs = pre ++ c :: post ∧ pre.length = childIndex cs p ∧
      a ≤ Bound.of p ∧ Bound.of p < b ∧ Q a b c.2 ∧
      ((pre = [] ∧ a = lo) ∨ Chain Q lo a pre) ∧ ((post = [] ∧ b = hi) ∨ Chain Q b hi post) ∧
      ∀ d ds, Chain Q a b ((c.1, d) :: ds) → Chain Q lo hi (pre ++ (c.1, d) :: (ds ++ post)) := by
  induction cs generalizing lo with
  | nil => exact h.elim
  | cons c cs ih =>
    cases cs with
    | nil =>
      refine ⟨[], c, [], lo, hi, rfl, rfl, hlo, hhi, h, Or.inl ⟨rfl, rfl⟩, Or.inl ⟨rfl, rfl⟩,
        fun d ds hd => ?_⟩
      simpa using hd
    | cons d cs =>
      by_cases hp : d.1 ≤ p
      · obtain ⟨pre, e, post, a, b, heq, hlen, ha, hb, hQe, hpre, hpost, hctx⟩ :=
          ih h.2 (Bound.of_le_of.mpr hp)
        -- in front of the hole stands `c`, and what follows it starts with the separator of `d`
        have hhead : ∀ x xs, ((pre ++ (e.1, x) :: xs).head?.map Prod.fst) = some d.1 := by
          intro x xs
          cases pre with
          | nil =>
            rw [List.nil_append, List.cons.injEq] at heq
            simp [heq.1]
          | cons y ys =>
            rw [List.cons_append, List.cons.injEq] at heq
            simp [heq.1]
        refine ⟨c :: pre, e, post, a, b, by rw [heq]; rfl, ?_, ha, hb, hQe, Or.inr ?_,
          hpost, ?_⟩
        · rw [List.length_cons, hlen]
          simp [childIndex, hp]
        · rcases hpre with ⟨rfl, rfl⟩ | hpre
          · exact h.1
          · cases pre with
            | nil => exact hpre.elim
            | cons y ys =>
              rw [List.cons_append, List.cons.injEq] at heq
              rw [heq.1] at h hpre
              exact ⟨h.1, hpre⟩
        · intro x xs hx
          exact cons (hhead x _) h.1 (hctx x xs hx)
      · refine ⟨[], c, d :: cs, lo, Bound.of d.1, rfl, ?_, hlo,
          Bound.of_lt_of.mpr (not_le.mp hp), h.1, Or.inl ⟨rfl, rfl⟩, Or.inr h.2, fun x xs hx => ?_⟩
        · simp [childIndex, hp]
        · exact append (l := (c.1, x) :: xs).mpr (Or.inr ⟨hx, h.2⟩)

end Chain

/-- Separators bound their subtrees and the first one of every inner page is `first`. -/
def Ordered (first : P) (pos : α → P) : {n : ℕ} → Bound P → Bound P → Page P α n → Prop
  | 0, lo, hi, es => lo < hi ∧ Within pos lo hi es
  | n+1, lo, hi, cs =>
    (List.head? cs).map Prod.fst = some first ∧ Chain (Ordered first pos (n := n)) lo hi cs

namespace Ordered
variable {first : P} {pos : α → P} {n : ℕ} {lo hi : Bound P}

lemma lt {p : Page P α n} (h : Ordered first pos lo hi p) : lo < hi := by
  induction n generalizing lo hi with
  | zero => exact h.1
  | succ n ih => exact h.2.lt fun _ _ _ hc => ih hc

lemma within {p : Page P α n} (h : Ordered first pos lo hi p) : Within pos lo hi (entries p) := by
  induction n generalizing lo hi with
  | zero =>
    rw [entries_leaf]
    exact h.2
  | succ n ih =>
    rw [entries_node]
    exact h.2.within (fun _ _ _ hc => hc.lt) fun _ _ _ hc => ih hc

lemma within_chain {cs : List (P × Page P α n)}
    (h : Chain (Ordered first pos (n := n)) lo hi cs) :
    Within pos lo hi (entries (n := n+1) cs) := by
  rw [entries_node]
  exact h.within (fun _ _ _ hc => hc.lt) fun _ _ _ hc => hc.within

lemma ne_nil {cs : Page P α (n+1)} (h : Ordered first pos lo hi cs) : cs ≠ [] :=
  h.2.ne_nil

/-- A leaf cut before one of its entries: the cut position separates the halves. -/
lemma cut {as bs : List α} {b : α} (h : Ordered (n := 0) first pos lo hi (as ++ b :: bs))
    (hne : as ≠ []) :
    Ordered (n := 0) first pos lo (Bound.of (pos b)) as ∧
      Ordered (n := 0) first pos (Bound.of (pos b)) hi (b :: bs) := by
  obtain ⟨hlt, hsorted, hmem⟩ := h
  have hcut := List.pairwise_append.mp hsorted
  have hab : ∀ a ∈ as, pos a < pos b := fun a ha => hcut.2.2 a ha b (List.mem_cons_self ..)
  obtain ⟨a, ha⟩ := List.exists_mem_of_ne_nil as hne
  refine ⟨⟨?_, hcut.1, fun e he => ⟨?_, ?_⟩⟩, ⟨?_, hcut.2.1, fun e he => ⟨?_, ?_⟩⟩⟩
  · exact (hmem a (List.mem_append_left _ ha)).1.trans_lt (Bound.of_lt_of.mpr (hab a ha))
  · exact (hmem e (List.mem_append_left _ he)).1
  · exact Bound.of_lt_of.mpr (hab e he)
  · exact (hmem b (List.mem_append_right _ (List.mem_cons_self ..))).2
  · rcases List.mem_cons.mp he with rfl | he
    · exact le_rfl
    · exact Bound.of_le_of.mpr ((List.pairwise_cons.mp hcut.2.1).1 e he).le
  · exact (hmem e (List.mem_append_right _ he)).2

/-- An inner page cut before one of its children; the second half starts over with `first`. -/
lemma cutNode {as bs : List (P × Page P α n)} {b : P × Page P α n}
    (h : Ordered (n := n+1) first pos lo hi (as ++ b :: bs)) (hne : as ≠ []) :
    Ordered (n := n+1) first pos lo (Bound.of b.1) as ∧
      Ordered (n := n+1) first pos (Bound.of b.1) hi ((first, b.2) :: bs) := by
  rcases Chain.append.mp h.2 with ⟨rfl, -⟩ | ⟨ha, hb⟩
  · exact absurd rfl hne
  · refine ⟨⟨?_, ha⟩, rfl, Chain.head_irrel hb⟩
    rw [← h.1, List.head?_append_of_ne_nil _ hne]

end Ordered

end CarolinaDB.PageTree
