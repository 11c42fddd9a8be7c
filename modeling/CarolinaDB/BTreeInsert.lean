import CarolinaDB.BTreePage

/-!
# Inserting keeps the pages in order

`insertInto` adds exactly the new entry, between its neighbours, and leaves every
page ordered and packed, also across splits of leaves and inner pages.
-/
namespace CarolinaDB.Storage

open PageTree

variable {V : Type} [ByteLen V] {n : ℕ} {e : LeafEntry V} {lo hi : Bound Pos}

/-- `new` is `old` with `e` put somewhere. -/
def Grown (e : LeafEntry V) (old new : List (LeafEntry V)) : Prop :=
  ∃ l r, old = l ++ r ∧ new = l ++ e :: r

omit [ByteLen V] in
lemma Grown.append {old new : List (LeafEntry V)} (h : Grown e old new)
    (as bs : List (LeafEntry V)) : Grown e (as ++ old ++ bs) (as ++ new ++ bs) := by
  obtain ⟨l, r, rfl, rfl⟩ := h
  exact ⟨as ++ l, r ++ bs, by simp, by simp⟩

omit [ByteLen V] in
lemma Grown.mem_iff {old new : List (LeafEntry V)} (h : Grown e old new) {x : LeafEntry V} :
    x ∈ new ↔ x = e ∨ x ∈ old := by
  obtain ⟨l, r, rfl, rfl⟩ := h
  simp only [List.mem_append, List.mem_cons]
  tauto

abbrev InOrder (lo hi : Bound Pos) (p : TreePage V n) : Prop :=
  Ordered leftmost LeafEntry.pos lo hi p

section Leaf
variable {es records : List (LeafEntry V)}

omit [ByteLen V] in
lemma exists_of_placeIn_eq_none (h : placeIn e es = none) : ∃ x ∈ es, x.pos = e.pos := by
  induction es with
  | nil => simp [placeIn] at h
  | cons x xs ih =>
    rw [placeIn] at h
    split at h
    · rename_i hx
      exact ⟨x, List.mem_cons_self .., hx⟩
    · split at h
      · simp at h
      · obtain ⟨y, hy, hpos⟩ := ih (Option.map_eq_none_iff.mp h)
        exact ⟨y, List.mem_cons_of_mem _ hy, hpos⟩

omit [ByteLen V] in
/-- The entry goes between the smaller and the greater ones. -/
lemma placeIn_eq_some (hs : es.Pairwise fun a b => a.pos < b.pos) (h : placeIn e es = some records) :
    Grown e es records ∧ records.Pairwise fun a b => a.pos < b.pos := by
  induction es generalizing records with
  | nil =>
    simp only [placeIn, Option.some.injEq] at h
    subst h
    exact ⟨⟨[], [], rfl, rfl⟩, by simp⟩
  | cons x xs ih =>
    rw [placeIn] at h
    split at h
    · simp at h
    rename_i hne
    split at h
    · rename_i hlt
      simp only [Option.some.injEq] at h
      subst h
      refine ⟨⟨[], x :: xs, rfl, rfl⟩, List.pairwise_cons.mpr ⟨fun y hy => ?_, hs⟩⟩
      rcases List.mem_cons.mp hy with rfl | hy
      · exact hlt
      · exact hlt.trans ((List.pairwise_cons.mp hs).1 y hy)
    · rename_i hnlt
      obtain ⟨ys, hys, rfl⟩ := Option.map_eq_some_iff.mp h
      obtain ⟨hgrown, hsorted⟩ := ih (List.pairwise_cons.mp hs).2 hys
      refine ⟨?_, List.pairwise_cons.mpr ⟨fun y hy => ?_, hsorted⟩⟩
      · simpa using hgrown.append [x] []
      · rcases hgrown.mem_iff.mp hy with rfl | hy
        · exact lt_of_le_of_ne (not_lt.mp hnlt) hne
        · exact (List.pairwise_cons.mp hs).1 y hy

lemma halfIndex_ne_none {half acc i : ℕ} {lens : List ℕ} (hne : lens ≠ [])
    (h : half ≤ acc + (lens.map (· + 4)).sum) : halfIndex half acc i lens ≠ none := by
  induction lens generalizing acc i with
  | nil => exact absurd rfl hne
  | cons len lens ih =>
    rw [halfIndex]
    split
    · simp
    · rename_i hlt
      have hlens : lens ≠ [] := by
        rintro rfl
        simp at h
        omega
      refine ih hlens ?_
      rw [List.map_cons, List.sum_cons] at h
      omega

lemma splitPoint_pos {lens : List ℕ} (hne : lens ≠ []) : 0 < splitPoint lens := by
  have h := halfIndex_ne_none (i := 0) hne
    (show (lens.map (· + 4)).sum / 2 ≤ 0 + (lens.map (· + 4)).sum by omega)
  rw [splitPoint]
  split
  · exact lt_of_lt_of_le Nat.one_pos (le_max_right _ _)
  · rename_i hnone
    exact absurd hnone h

/-- What a leaf becomes: itself rewritten, or two halves around the separator. -/
lemma rewriteOrSplit_cases {out : Outcome V 0} (hne : records ≠ [])
    (h : rewriteOrSplit records = .ok out) :
    (out = .written records ∧ fitPage (records.map LeafEntry.encodedLen)) ∨
      ∃ l s r, out = .split l s.pos (s :: r) ∧ records = l ++ s :: r ∧ l ≠ [] ∧
        fitPage (l.map LeafEntry.encodedLen) ∧ fitPage ((s :: r).map LeafEntry.encodedLen) := by
  rw [rewriteOrSplit] at h
  split at h
  · rename_i hfit
    simp only [Except.ok.injEq] at h
    exact Or.inl ⟨h.symm, hfit⟩
  · extract_lets k at h
    have hk : 0 < k := splitPoint_pos (by simpa using hne)
    split at h
    · simp at h
    · rename_i s r hdrop
      split at h
      · simp at h
      rename_i hl
      split at h
      · simp at h
      rename_i hr
      simp only [Except.ok.injEq] at h
      refine Or.inr ⟨records.take k, s, r, h.symm, ?_, ?_, by simpa using hl, by simpa using hr⟩
      · rw [← hdrop, List.take_append_drop]
      · rw [ne_eq, List.take_eq_nil_iff]
        rintro (hk0 | hnil)
        · omega
        · exact hne hnil

end Leaf

section Node
variable {cs : List (Pos × TreePage V n)} {i : ℕ} {sep : Pos} {right : TreePage V n}

omit [ByteLen V] in
lemma insertSeparator_cases {out : Outcome V (n+1)}
    (h : insertSeparator cs i sep right = .ok out) :
    let records := cs.insertIdx (i + 1) (sep, right)
    (out = .written records ∧ fitPage (records.map fun c => separatorLen c.1)) ∨
      ∃ l m r, out = .split l m.1 ((leftmost, m.2) :: r) ∧ records = l ++ m :: r ∧
        l.length = records.length / 2 ∧ ¬ fitPage (records.map fun c => separatorLen c.1) ∧
        fitPage (l.map fun c => separatorLen c.1) ∧
        fitPage (((leftmost, m.2) :: r).map fun c => separatorLen c.1) := by
  rw [insertSeparator] at h
  intro records
  split at h
  · rename_i hfit
    simp only [Except.ok.injEq] at h
    exact Or.inl ⟨h.symm, hfit⟩
  · rename_i hfull
    extract_lets k at h
    split at h
    · simp at h
    · rename_i m r hdrop
      split at h
      · simp at h
      rename_i hl
      split at h
      · simp at h
      rename_i hr
      simp only [Except.ok.injEq] at h
      refine Or.inr ⟨records.take (records.length / 2), m, r, h.symm, ?_, ?_, hfull,
        by simpa using hl, by simpa using hr⟩
      · rw [← hdrop, List.take_append_drop]
      · rw [List.length_take]
        omega

omit [ByteLen V] in
lemma entries_append (l r : List (Pos × TreePage V n)) :
    entries (n := n+1) (l ++ r) = entries (n := n+1) l ++ entries (n := n+1) r := by
  simp [entries_node]

omit [ByteLen V] in
lemma entries_cons (c : Pos × TreePage V n) (r : List (Pos × TreePage V n)) :
    entries (n := n+1) (c :: r) = entries c.2 ++ entries (n := n+1) r := by
  simp [entries_node]

omit [ByteLen V] in
lemma entries_ne_nil {c : Pos × TreePage V n} (hc : c ∈ cs) (h : entries c.2 ≠ []) :
    entries (n := n+1) cs ≠ [] := by
  obtain ⟨x, hx⟩ := List.exists_mem_of_ne_nil _ h
  rw [entries_node]
  exact List.ne_nil_of_mem (List.mem_flatMap.mpr ⟨c, hc, hx⟩)

end Node

/-- What an insertion into an ordered page amounts to. -/
def Outcome.Good (e : LeafEntry V) (lo hi : Bound Pos) (p : TreePage V n) : Outcome V n → Prop
  | .kept => ∃ x ∈ entries p, x.pos = e.pos
  | .written q => InOrder lo hi q ∧ Grown e (entries p) (entries q)
  | .split l s r => InOrder lo (Bound.of s) l ∧ InOrder (Bound.of s) hi r ∧
      Grown e (entries p) (entries l ++ entries r)

lemma insertLeaf_good {es : TreePage V 0} (h : InOrder lo hi es) (hlo : lo ≤ Bound.of e.pos)
    (hhi : Bound.of e.pos < hi) {out : Outcome V 0} (hins : insertInto e es = .ok out) :
    out.Good e lo hi es := by
  rw [insertInto] at hins
  split at hins
  · rename_i hplace
    simp only [Except.ok.injEq] at hins
    subst hins
    obtain ⟨x, hx, hpos⟩ := exists_of_placeIn_eq_none hplace
    exact ⟨x, by rwa [entries_leaf], hpos⟩
  · rename_i records hplace
    obtain ⟨hgrown, hsorted⟩ := placeIn_eq_some h.2.1 hplace
    have hrec : InOrder (n := 0) lo hi records := by
      refine ⟨h.1, hsorted, fun x hx => ?_⟩
      rcases hgrown.mem_iff.mp hx with rfl | hx
      · exact ⟨hlo, hhi⟩
      · exact h.2.2 x hx
    have hne : records ≠ [] := List.ne_nil_of_mem (hgrown.mem_iff.mpr (Or.inl rfl))
    rcases rewriteOrSplit_cases hne hins with ⟨rfl, -⟩ | ⟨l, s, r, rfl, rfl, hl, -, -⟩
    · exact ⟨hrec, by simpa using hgrown⟩
    · obtain ⟨hleft, hright⟩ := hrec.cut hl
      exact ⟨hleft, hright, by simpa using hgrown⟩

lemma insertIdx_hole {γ : Type} (l : List γ) (c d : γ) (r : List γ) :
    (l ++ c :: r).insertIdx (l.length + 1) d = l ++ c :: d :: r := by
  induction l with
  | nil => simp
  | cons x l ih => simpa using ih

/-- What an insertion below the child `c` does to its page. -/
lemma insertInto_node_cases {l r : List (Pos × TreePage V n)} {c : Pos × TreePage V n}
    {out : Outcome V (n+1)} (hlen : l.length = childIndex (l ++ c :: r) e.pos)
    (h : insertInto e (n := n+1) (l ++ c :: r) = .ok out) :
    (insertInto e c.2 = .ok .kept ∧ out = .kept) ∨
    (∃ q, insertInto e c.2 = .ok (.written q) ∧ out = .written (l ++ (c.1, q) :: r)) ∨
    ∃ left sep right, insertInto e c.2 = .ok (.split left sep right) ∧
      ((out = .written (l ++ (c.1, left) :: (sep, right) :: r) ∧
        fitPage ((l ++ (c.1, left) :: (sep, right) :: r).map fun c => separatorLen c.1)) ∨
      ∃ l' m r', out = .split l' m.1 ((leftmost, m.2) :: r') ∧
        l ++ (c.1, left) :: (sep, right) :: r = l' ++ m :: r' ∧
        l'.length = (l' ++ m :: r').length / 2 ∧
        ¬ fitPage ((l' ++ m :: r').map fun c => separatorLen c.1) ∧
        fitPage (l'.map fun c => separatorLen c.1) ∧
        fitPage (((leftmost, m.2) :: r').map fun c => separatorLen c.1)) := by
  have hget : (l ++ c :: r)[l.length]? = some c := by simp
  have hset (d : Pos × TreePage V n) : (l ++ c :: r).set l.length d = l ++ d :: r := by simp
  rw [insertInto, ← hlen, hget] at h
  simp only [hset] at h
  split at h
  · simp at h
  · rename_i hkept
    simp only [Except.ok.injEq] at h
    exact Or.inl ⟨hkept, h.symm⟩
  · rename_i q hq
    simp only [Except.ok.injEq] at h
    exact Or.inr (Or.inl ⟨q, hq, h.symm⟩)
  · rename_i left sep right hq
    refine Or.inr (Or.inr ⟨left, sep, right, hq, ?_⟩)
    have hcases := insertSeparator_cases h
    simp only [insertIdx_hole] at hcases
    rcases hcases with hwritten | ⟨l', m, r', hout, hrecs, hrest⟩
    · exact Or.inl hwritten
    · rw [hrecs] at hrest
      exact Or.inr ⟨l', m, r', hout, hrecs, hrest⟩

omit [ByteLen V] in
lemma head_hole {l r r' : List (Pos × TreePage V n)} {c : Pos × TreePage V n} {d : TreePage V n} :
    (l ++ (c.1, d) :: r').head?.map Prod.fst = (l ++ c :: r).head?.map Prod.fst := by
  cases l with
  | nil => rfl
  | cons x l => rfl

theorem insertInto_good {p : TreePage V n} (h : InOrder lo hi p) (hlo : lo ≤ Bound.of e.pos)
    (hhi : Bound.of e.pos < hi) {out : Outcome V n} (hins : insertInto e p = .ok out) :
    out.Good e lo hi p := by
  induction n generalizing lo hi with
  | zero => exact insertLeaf_good h hlo hhi hins
  | succ n ih =>
    obtain ⟨l, c, r, a, b, rfl, hlen, ha, hb, hc, -, -, hctx⟩ := h.2.route hlo hhi
    -- the page with the child replaced by pages that fill the same bounds
    have hfill : ∀ d ds, Chain (Ordered leftmost LeafEntry.pos (n := n)) a b ((c.1, d) :: ds) →
        InOrder (n := n+1) lo hi (l ++ (c.1, d) :: (ds ++ r)) := fun d ds hd =>
      ⟨head_hole.trans h.1, hctx d ds hd⟩
    have hold : entries (n := n+1) (l ++ c :: r) =
        entries (n := n+1) l ++ entries c.2 ++ entries (n := n+1) r := by
      rw [entries_append, entries_cons, List.append_assoc]
    rcases insertInto_node_cases hlen hins with
      ⟨hkept, rfl⟩ | ⟨q, hq, rfl⟩ | ⟨left, sep, right, hq, hout⟩
    · obtain ⟨x, hx, hpos⟩ := ih hc ha hb hkept
      exact ⟨x, by rw [hold]; simp [hx], hpos⟩
    · obtain ⟨hord, hgrown⟩ := ih hc ha hb hq
      refine ⟨hfill q [] hord, ?_⟩
      rw [hold, entries_append, entries_cons, ← List.append_assoc]
      exact hgrown.append _ _
    · obtain ⟨hleft, hright, hgrown⟩ := ih hc ha hb hq
      have hrec := hfill left [(sep, right)] ⟨hleft, hright⟩
      have hnew : Grown e (entries (n := n+1) (l ++ c :: r))
          (entries (n := n+1) (l ++ (c.1, left) :: (sep, right) :: r)) := by
        rw [hold, entries_append, entries_cons, entries_cons, ← List.append_assoc (entries left),
          ← List.append_assoc]
        exact hgrown.append _ _
      rcases hout with ⟨rfl, -⟩ | ⟨l', m, r', rfl, hrecs, hhalf, -⟩
      · exact ⟨hrec, hnew⟩
      · have hl' : l' ≠ [] := by
          rintro rfl
          have := congrArg List.length hrecs
          simp at hhalf this
          omega
        rw [List.cons_append, List.nil_append, hrecs] at hrec
        rw [hrecs, entries_append l', entries_cons m] at hnew
        obtain ⟨hl, hr⟩ := hrec.cutNode hl'
        refine ⟨hl, hr, ?_⟩
        rw [entries_cons]
        exact hnew

/-- A version that is there already is found, and nothing is written. -/
theorem insertInto_eq_kept {p : TreePage V n} (h : InOrder lo hi p) {x : LeafEntry V}
    (hx : x ∈ entries p) (hpos : x.pos = e.pos) : insertInto e p = .ok .kept := by
  induction n generalizing lo hi with
  | zero =>
    have hplace : placeIn e p = none := by
      by_contra hsome
      obtain ⟨records, hrec⟩ := Option.ne_none_iff_exists'.mp hsome
      obtain ⟨⟨l, r, rfl, rfl⟩, hsorted⟩ := placeIn_eq_some h.2.1 hrec
      rw [entries_leaf, List.mem_append] at hx
      obtain ⟨-, hr, hlr⟩ := List.pairwise_append.mp hsorted
      rcases hx with hx | hx
      · exact (hlr x hx e (List.mem_cons_self ..)).ne hpos
      · exact ((List.pairwise_cons.mp hr).1 x hx).ne hpos.symm
    rw [insertInto, hplace]
  | succ n ih =>
    have hbounds := h.within.2 x hx
    rw [hpos] at hbounds
    obtain ⟨l, c, r, a, b, rfl, hlen, ha, hb, hc, hl, hr, -⟩ := h.2.route hbounds.1 hbounds.2
    have hget : (l ++ c :: r)[l.length]? = some c := by simp
    -- the entry is below the child its position leads to
    have hxc : x ∈ entries c.2 := by
      rw [entries_append, entries_cons, List.mem_append, List.mem_append] at hx
      rcases hx with hx | hx | hx
      · rcases hl with ⟨rfl, -⟩ | hl
        · simp [entries_node] at hx
        · have hlt := ((Ordered.within_chain hl).2 x hx).2.trans_le ha
          rw [hpos] at hlt
          exact absurd hlt (lt_irrefl _)
      · exact hx
      · rcases hr with ⟨rfl, -⟩ | hr
        · simp [entries_node] at hx
        · have hle := hb.trans_le ((Ordered.within_chain hr).2 x hx).1
          rw [hpos] at hle
          exact absurd hle (lt_irrefl _)
    rw [insertInto, ← hlen, hget]
    simp only [ih hc hxc]

section Packed
variable {onEntry : LeafEntry V → Prop} {onSep : Pos → Prop}

def Outcome.Packed (onEntry : LeafEntry V → Prop) (onSep : Pos → Prop) : Outcome V n → Prop
  | .kept => True
  | .written q => Storage.Packed onEntry onSep q
  | .split l s r => onSep s ∧ (entries l ≠ [] ∧ Storage.Packed onEntry onSep l) ∧
      entries r ≠ [] ∧ Storage.Packed onEntry onSep r

omit [ByteLen V] in
/-- Separators of admissible length do not fill a page with fewer than four. -/
lemma four_le_of_not_fitPage {cs : List (Pos × TreePage V n)}
    (hlen : ∀ c ∈ cs, separatorLen c.1 ≤ 18 + maxKeyLen)
    (h : ¬ fitPage (cs.map fun c => separatorLen c.1)) : 4 ≤ cs.length := by
  have hsum := List.sum_le_card_nsmul (cs.map fun c => separatorLen c.1) (18 + maxKeyLen) (by
    intro x hx
    obtain ⟨c, hc, rfl⟩ := List.mem_map.mp hx
    exact hlen c hc)
  simp only [fitPage, pageHeaderLen, pageSize, List.length_map, decide_eq_true_eq] at h
  simp only [List.length_map, smul_eq_mul, maxKeyLen] at hsum
  omega

theorem insertInto_packed (hsep : ∀ x, onEntry x → onSep x.pos) (hfirst : onSep leftmost)
    (hlen : ∀ s, onSep s → separatorLen s ≤ 18 + maxKeyLen) (he : onEntry e) {p : TreePage V n}
    (h : InOrder lo hi p) (hp : Packed onEntry onSep p) (hlo : lo ≤ Bound.of e.pos)
    (hhi : Bound.of e.pos < hi) {out : Outcome V n} (hins : insertInto e p = .ok out) :
    out.Packed onEntry onSep := by
  induction n generalizing lo hi with
  | zero =>
    rw [insertInto] at hins
    split at hins
    · simp only [Except.ok.injEq] at hins
      subst hins
      trivial
    · rename_i records hplace
      have hgrown := (placeIn_eq_some h.2.1 hplace).1
      have hrec : ∀ x ∈ records, onEntry x := by
        intro x hx
        rcases hgrown.mem_iff.mp hx with rfl | hx
        · exact he
        · exact hp.2 x hx
      have hne : records ≠ [] := List.ne_nil_of_mem (hgrown.mem_iff.mpr (Or.inl rfl))
      rcases rewriteOrSplit_cases hne hins with ⟨rfl, hfit⟩ | ⟨l, s, r, rfl, rfl, hl, hfl, hfr⟩
      · exact ⟨hfit, hrec⟩
      · refine ⟨hsep s (hrec s (by simp)), ⟨by simpa using hl, hfl, fun x hx => ?_⟩,
          by simp, hfr, fun x hx => ?_⟩
        · exact hrec x (List.mem_append_left _ hx)
        · exact hrec x (List.mem_append_right _ hx)
  | succ n ih =>
    obtain ⟨l, c, r, a, b, rfl, hidx, ha, hb, hc, -, -, -⟩ := h.2.route hlo hhi
    obtain ⟨htwo, hfit, hcs⟩ := hp
    have hcp := hcs c (by simp)
    rcases insertInto_node_cases hidx hins with
      ⟨-, rfl⟩ | ⟨q, hq, rfl⟩ | ⟨left, sep, right, hq, hout⟩
    · trivial
    · have hgrown := (insertInto_good hc ha hb hq).2
      have hq' := ih hc hcp.2.2 ha hb hq
      refine ⟨by simpa using htwo, by simpa using hfit, fun d hd => ?_⟩
      rcases List.mem_append.mp hd with hd | hd
      · exact hcs d (List.mem_append_left _ hd)
      · rcases List.mem_cons.mp hd with rfl | hd
        · exact ⟨hcp.1, List.ne_nil_of_mem (hgrown.mem_iff.mpr (Or.inl rfl)), hq'⟩
        · exact hcs d (by simp [hd])
    · obtain ⟨hs, hleft, hright⟩ := ih hc hcp.2.2 ha hb hq
      have hrec : ∀ d ∈ l ++ (c.1, left) :: (sep, right) :: r,
          onSep d.1 ∧ entries d.2 ≠ [] ∧ Packed onEntry onSep d.2 := by
        intro d hd
        simp only [List.mem_append, List.mem_cons] at hd
        rcases hd with hd | rfl | rfl | hd
        · exact hcs d (List.mem_append_left _ hd)
        · exact ⟨hcp.1, hleft⟩
        · exact ⟨hs, hright⟩
        · exact hcs d (by simp [hd])
      rcases hout with ⟨rfl, hfit'⟩ | ⟨l', m, r', rfl, hrecs, hhalf, hfull, hfl, hfr⟩
      · exact ⟨by simp; omega, hfit', hrec⟩
      · rw [hrecs] at hrec
        have hfour := four_le_of_not_fitPage (fun d hd => hlen d.1 (hrec d hd).1) hfull
        rw [List.length_append, List.length_cons] at hhalf hfour
        have hm := hrec m (by simp)
        have hl' : ∀ d ∈ l', onSep d.1 ∧ entries d.2 ≠ [] ∧ Packed onEntry onSep d.2 :=
          fun d hd => hrec d (List.mem_append_left _ hd)
        obtain ⟨d, hd⟩ := List.exists_mem_of_length_pos (show 0 < l'.length by omega)
        refine ⟨hm.1, ⟨entries_ne_nil hd (hl' d hd).2.1, ⟨by omega, hfl, hl'⟩⟩,
          entries_ne_nil (List.mem_cons_self ..) hm.2.1, ⟨?_, hfr, fun d hd => ?_⟩⟩
        · rw [List.length_cons]
          omega
        · rcases List.mem_cons.mp hd with rfl | hd
          · exact ⟨hfirst, hm.2⟩
          · exact hrec d (by simp [hd])

lemma Packed.of_mem {p : TreePage V n} (h : Packed onEntry onSep p) : ∀ x ∈ entries p, onEntry x := by
  induction n with
  | zero => simpa using h.2
  | succ n ih =>
    intro x hx
    rw [entries_node, List.mem_flatMap] at hx
    obtain ⟨c, hc, hx⟩ := hx
    exact ih (h.2.2 c hc).2.2 x hx

lemma Packed.leaf_ne_nil {p : TreePage V n} (h : Packed onEntry onSep p) (hp : entries p ≠ []) :
    ∀ leaf ∈ leaves p, leaf ≠ [] := by
  induction n with
  | zero => simpa using hp
  | succ n ih =>
    intro leaf hleaf
    rw [leaves_node, List.mem_flatMap] at hleaf
    obtain ⟨c, hc, hleaf⟩ := hleaf
    exact ih (h.2.2 c hc).2.2 (h.2.2 c hc).2.1 leaf hleaf

/-- A tree doubles its leaves with every level. -/
lemma Packed.two_pow_le {p : TreePage V n} (h : Packed onEntry onSep p) :
    2 ^ n ≤ (leaves p).length := by
  induction n with
  | zero => simp
  | succ n ih =>
    have hle : ∀ x ∈ List.map (fun c => (leaves c.2).length) p, 2 ^ n ≤ x := by
      intro x hx
      obtain ⟨c, hc, rfl⟩ := List.mem_map.mp hx
      exact ih (h.2.2 c hc).2.2
    have hsum := List.card_nsmul_le_sum _ _ hle
    rw [leaves_node, List.length_flatMap]
    calc 2 ^ (n+1) = 2 * 2 ^ n := by ring
      _ ≤ List.length p * 2 ^ n := Nat.mul_le_mul_right _ h.1
      _ ≤ _ := by simpa using hsum

end Packed

end CarolinaDB.Storage
