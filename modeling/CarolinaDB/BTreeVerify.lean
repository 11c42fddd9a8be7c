import CarolinaDB.BTreeRead

/-!
# Structural verification

`verify` accepts every tree whose overflow entries can be read: the order and
the separators it checks are what a tree carries.
-/
namespace CarolinaDB.Storage

open PageTree

variable {V : Type} {lo hi : Bound Pos} {low high : Option Pos}

/-- The optional bound a page is verified against. -/
def lower (low : Option Pos) : Bound Pos := low.elim ⊥ Bound.of

def upper (high : Option Pos) : Bound Pos := high.elim ⊤ Bound.of

/-- The value of an overflow entry can be read. -/
def Readable (e : LeafEntry V) : Prop :=
  e.flags &&& entryFlagOverflow ≠ 0 → ∃ v, e.readValue = .ok v

lemma not_any_lt_of_lower {p : Pos} (h : lower low ≤ Bound.of p) : ¬ low.any (p < ·) := by
  cases low with
  | none => simp
  | some l => simpa [lower] using h

lemma not_any_ge_of_upper {p : Pos} (h : Bound.of p < upper high) :
    ¬ high.any (fun q => ¬ p < q) := by
  cases high with
  | none => simp
  | some l => simpa [upper] using h

lemma verifyEntries_eq_ok {es : List (LeafEntry V)} (stats : VerifyStats) {last : Option Pos}
    (h : Within LeafEntry.pos (lower low) (upper high) es) (hread : ∀ e ∈ es, Readable e)
    (hlast : ∀ l ∈ last, ∀ e ∈ es, l < e.pos) (hhi : ∀ l ∈ last, Bound.of l < upper high) :
    ∃ stats' last', verifyEntries low high es stats last = .ok (stats', last') ∧
      ∀ l ∈ last', Bound.of l < upper high := by
  induction es generalizing stats last with
  | nil => exact ⟨stats, last, rfl, hhi⟩
  | cons e es ih =>
    obtain ⟨hsorted, hbounds⟩ := h
    obtain ⟨he, hsorted'⟩ := List.pairwise_cons.mp hsorted
    have hbe := hbounds e (List.mem_cons_self ..)
    have hgt : ¬ last.any (fun l => ¬ l < e.pos) := by
      cases hl : last with
      | none => simp
      | some l => simpa using hlast l hl e (List.mem_cons_self ..)
    have hrest := ih { stats with entries := stats.entries + 1 }
      ⟨hsorted', fun x hx => hbounds x (List.mem_cons_of_mem _ hx)⟩
      (fun x hx => hread x (List.mem_cons_of_mem _ hx))
      (show ∀ l ∈ some e.pos, ∀ x ∈ es, l < x.pos by simpa using he) (by simpa using hbe.2)
    rw [verifyEntries, if_neg (not_any_lt_of_lower hbe.1), if_neg (not_any_ge_of_upper hbe.2),
      if_neg hgt]
    split
    · rename_i hflag
      obtain ⟨v, hv⟩ := hread e (List.mem_cons_self ..) hflag
      rw [hv]
      exact hrest
    · exact hrest

lemma separatorsIncrease_of_chain {β : Type} {Q : Bound Pos → Bound Pos → β → Prop}
    (hQ : ∀ a b c, Q a b c → a < b) {c : Pos × β} {cs : List (Pos × β)} {lo : Bound Pos}
    (h : Chain Q lo hi (c :: cs)) (hc : c.1 = leftmost ∨ lo = Bound.of c.1) :
    separatorsIncrease ((c :: cs).map Prod.fst) := by
  induction cs generalizing c lo with
  | nil => rfl
  | cons d cs ih =>
    have hhead : c.1 = leftmost ∨ c.1 < d.1 := by
      rcases hc with hc | rfl
      · exact Or.inl hc
      · exact Or.inr (Bound.of_lt_of.mp (hQ _ _ _ h.1))
    have htail := ih h.2 (Or.inr rfl)
    simp only [List.map_cons] at htail ⊢
    simp [separatorsIncrease, hhead, htail]

/-- Children that are accepted between their bounds are accepted one after the other. -/
lemma verifyChildren_eq_ok {β σ : Type} {Q : Bound Pos → Bound Pos → β → Prop}
    {check : Option Pos → Option Pos → β → σ → CoreResult σ} {R : σ → Bound Pos → Prop}
    {cs : List (Pos × β)}
    (hcheck : ∀ c ∈ cs, ∀ low high s, Q (lower low) (upper high) c.2 → R s (lower low) →
      ∃ s', check low high c.2 s = .ok s' ∧ R s' (upper high))
    (h : Chain Q (lower low) (upper high) cs) {s : σ} (hs : R s (lower low)) :
    ∃ s', verifyChildren check high low cs s = .ok s' ∧ R s' (upper high) := by
  induction cs generalizing low s with
  | nil => exact h.elim
  | cons c cs ih =>
    cases cs with
    | nil => exact hcheck c (by simp) low high s h hs
    | cons d cs =>
      obtain ⟨s', hs', hreach⟩ := hcheck c (by simp) low (some d.1) s h.1 hs
      rw [verifyChildren, hs']
      have hrest : Chain Q (lower (some d.1)) (upper high) (d :: cs) := h.2
      exact ih (fun x hx => hcheck x (List.mem_cons_of_mem _ hx)) hrest hreach

theorem verifyPage_eq_ok {n depth : ℕ} (low high : Option Pos) {p : TreePage V n}
    {s : VerifyStats × Option Pos}
    (h : InOrder (lower low) (upper high) p) (hread : ∀ e ∈ entries p, Readable e)
    (hdepth : depth + n ≤ 64) (hlast : ∀ l ∈ s.2, Bound.of l < lower low) :
    ∃ s', verifyPage depth low high p s = .ok s' ∧ ∀ l ∈ s'.2, Bound.of l < upper high := by
  induction n generalizing depth low high s with
  | zero =>
    obtain ⟨stats, last⟩ := s
    rw [verifyPage, if_neg (by omega)]
    obtain ⟨stats', last', hok, hhi⟩ := verifyEntries_eq_ok _ h.2 (by simpa using hread)
      (fun l hl e he => Bound.of_lt_of.mp ((hlast l hl).trans_le (h.2.2 e he).1))
      (fun l hl => (hlast l hl).trans h.1)
    exact ⟨(stats', last'), hok, hhi⟩
  | succ n ih =>
    obtain ⟨stats, last⟩ := s
    cases p with
    | nil => exact absurd rfl h.ne_nil
    | cons c cs =>
      have hdepth' : ¬ 64 < depth := by omega
      have hfirst : c.1 = leftmost := by simpa using h.1
      have hinc := separatorsIncrease_of_chain (fun _ _ _ hq => Ordered.lt hq) h.2 (Or.inl hfirst)
      simp only [verifyPage, hdepth', hfirst, hinc, ne_eq, not_true_eq_false, if_false]
      refine verifyChildren_eq_ok (Q := Ordered leftmost LeafEntry.pos (n := n))
        (R := fun (s : VerifyStats × Option Pos) b => ∀ l ∈ s.2, Bound.of l < b) ?_ h.2 hlast
      intro d hd low' high' s' hq hs'
      exact ih low' high' hq (fun e he => hread e (by
        rw [entries_node]
        exact List.mem_flatMap.mpr ⟨d, hd, he⟩)) (by omega) hs'

theorem BTree.verify_eq_ok [ByteLen V] {t : BTree V} (h : t.height ≤ 64)
    (hread : ∀ e ∈ t.entries, Readable e) : ∃ stats, t.verify = .ok stats := by
  obtain ⟨s, hs, -⟩ := verifyPage_eq_ok none none (s := ({}, none)) t.ordered hread
    (show 0 + t.height ≤ 64 by omega) (by simp)
  exact ⟨s.1, by rw [BTree.verify, hs]; rfl⟩

end CarolinaDB.Storage
