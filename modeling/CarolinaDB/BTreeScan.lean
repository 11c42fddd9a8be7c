import CarolinaDB.BTreeRead

/-!
# What scans of the tree return

`visibleRows` is a scan over a plain list of entries. The walk over the leaves,
with its cursor, its descents and its steps to the right, computes the same rows
and stops at the limit, which it looks at after emitting a row.
-/
namespace CarolinaDB.Storage

open PageTree Loop

variable {V : Type}

/-- The rows of a scan over entries in order; `current` is the key emitted last. -/
def visibleRows (end_ : Option Bytes) (visible : ℕ) :
    Option Bytes → List (LeafEntry V) → List (LeafEntry V)
  | _, [] => []
  | current, e :: es =>
    if end_.any (fun k => ¬ e.key < k) then []
    else if current = some e.key then visibleRows end_ visible current es
    else if e.seq ≤ visible then e :: visibleRows end_ visible (some e.key) es
    else visibleRows end_ visible current es

section Rows
variable {end_ : Option Bytes} {visible : ℕ} {current : Option Bytes} {es : List (LeafEntry V)}

lemma key_le_of_pos_lt {a b : LeafEntry V} (h : a.pos < b.pos) : a.key ≤ b.key := by
  rcases position_lt.mp h with h | ⟨h, -⟩
  · exact h.le
  · exact h.le

/-- A row is the newest visible version of its key, for keys after the current one. -/
lemma mem_visibleRows (hs : es.Pairwise fun a b => a.pos < b.pos)
    (hcur : ∀ k ∈ current, ∀ x ∈ es, k ≤ x.key) {e : LeafEntry V} :
    e ∈ visibleRows end_ visible current es ↔
      e ∈ es ∧ (∀ k ∈ end_, e.key < k) ∧ e.seq ≤ visible ∧ current ≠ some e.key ∧
        ∀ x ∈ es, x.key = e.key → x.seq ≤ visible → x.seq ≤ e.seq := by
  induction es generalizing current with
  | nil => simp [visibleRows]
  | cons y es ih =>
    obtain ⟨hy, hs'⟩ := List.pairwise_cons.mp hs
    have hcur' : ∀ k ∈ current, ∀ x ∈ es, k ≤ x.key :=
      fun k hk x hx => hcur k hk x (List.mem_cons_of_mem _ hx)
    rw [visibleRows]
    split
    · rename_i hend
      -- keys do not decrease, so no later entry is below the end either
      cases end_ with
      | none => simp at hend
      | some k =>
        simp only [Option.any_some, decide_not, Bool.not_eq_eq_eq_not, Bool.not_true,
          decide_eq_false_iff_not] at hend
        simp only [List.not_mem_nil, Option.mem_some_iff, forall_eq', false_iff, not_and]
        intro he hk
        rcases List.mem_cons.mp he with rfl | he
        · exact absurd hk hend
        · exact absurd ((key_le_of_pos_lt (hy e he)).trans_lt hk) hend
    rename_i hend
    split
    · rename_i hcurrent
      rw [ih hs' hcur']
      constructor
      · rintro ⟨he, hek, hv, hc, hmax⟩
        refine ⟨List.mem_cons_of_mem _ he, hek, hv, hc, fun x hx hk hxv => ?_⟩
        rcases List.mem_cons.mp hx with rfl | hx
        · exact absurd (hcurrent.trans (congrArg some hk)) hc
        · exact hmax x hx hk hxv
      · rintro ⟨he, hek, hv, hc, hmax⟩
        rcases List.mem_cons.mp he with rfl | he
        · exact absurd hcurrent hc
        · exact ⟨he, hek, hv, hc, fun x hx => hmax x (List.mem_cons_of_mem _ hx)⟩
    rename_i hcurrent
    split
    · rename_i hyv
      rw [List.mem_cons, ih hs' (fun k hk x hx => by
        rw [Option.mem_some_iff] at hk
        exact hk ▸ key_le_of_pos_lt (hy x hx))]
      constructor
      · rintro (rfl | ⟨he, hek, hv, hc, hmax⟩)
        · refine ⟨List.mem_cons_self .., fun k hk => ?_, hyv, hcurrent, fun x hx hk hxv => ?_⟩
          · by_contra hlt
            exact hend (by rw [Option.mem_def.mp hk]; simpa using hlt)
          · rcases List.mem_cons.mp hx with rfl | hx
            · exact le_rfl
            · rcases position_lt.mp (hy x hx) with h | ⟨-, h⟩
              · exact absurd hk.symm h.ne
              · exact h.le
        · refine ⟨List.mem_cons_of_mem _ he, hek, hv, fun hcur' => ?_, fun x hx hk hxv => ?_⟩
          · have hle := hcur _ hcur' y (List.mem_cons_self ..)
            have hye := key_le_of_pos_lt (hy e he)
            exact hc (congrArg some (le_antisymm hye hle))
          · rcases List.mem_cons.mp hx with rfl | hx
            · exact absurd (congrArg some hk) hc
            · exact hmax x hx hk hxv
      · rintro ⟨he, hek, hv, hc, hmax⟩
        rcases List.mem_cons.mp he with rfl | he
        · exact Or.inl rfl
        · refine Or.inr ⟨he, hek, hv, fun hkey => ?_, fun x hx => hmax x (List.mem_cons_of_mem _ hx)⟩
          rw [Option.some.injEq] at hkey
          have hle := hmax y (List.mem_cons_self ..) hkey hyv
          rcases position_lt.mp (hy e he) with h | ⟨-, h⟩
          · exact absurd hkey h.ne
          · omega
    · rename_i hyv
      rw [ih hs' hcur']
      constructor
      · rintro ⟨he, hek, hv, hc, hmax⟩
        refine ⟨List.mem_cons_of_mem _ he, hek, hv, hc, fun x hx hk hxv => ?_⟩
        rcases List.mem_cons.mp hx with rfl | hx
        · exact absurd hxv hyv
        · exact hmax x hx hk hxv
      · rintro ⟨he, hek, hv, hc, hmax⟩
        rcases List.mem_cons.mp he with rfl | he
        · exact absurd hv hyv
        · exact ⟨he, hek, hv, hc, fun x hx => hmax x (List.mem_cons_of_mem _ hx)⟩

lemma sorted_visibleRows (hs : es.Pairwise fun a b => a.pos < b.pos) :
    (visibleRows end_ visible current es).Pairwise fun a b => a.key < b.key := by
  induction es generalizing current with
  | nil => exact List.Pairwise.nil
  | cons y es ih =>
    obtain ⟨hy, hs'⟩ := List.pairwise_cons.mp hs
    rw [visibleRows]
    split
    · exact List.Pairwise.nil
    split
    · exact ih hs'
    split
    · refine List.pairwise_cons.mpr ⟨fun x hx => ?_, ih hs'⟩
      obtain ⟨hmem, -, -, hne, -⟩ := (mem_visibleRows hs' (fun k hk x hx => by
        rw [Option.mem_some_iff] at hk
        exact hk ▸ key_le_of_pos_lt (hy x hx))).mp hx
      exact lt_of_le_of_ne (key_le_of_pos_lt (hy x hmem)) fun h => hne (congrArg some h)
    · exact ih hs'

end Rows

/-- No position lies strictly between an entry and the one after it. -/
lemma nextPosition_le {e x : LeafEntry V} (h : e.pos < x.pos) (hx : x.seq ≤ u64Max) :
    nextPosition e ≤ x.pos := by
  rw [LeafEntry.pos, LeafEntry.pos, position_lt] at h
  unfold nextPosition LeafEntry.pos
  split
  · rw [position_le]
    rcases h with h | ⟨-, h⟩
    · by_cases hlt : e.key ++ [0] < x.key
      · exact Or.inl hlt
      · refine Or.inr ⟨le_antisymm ?_ (not_lt.mp hlt), hx⟩
        by_contra hgt
        exact absurd h (not_lt.mpr (Bytes.le_of_lt_push_zero (not_le.mp hgt)))
    · omega
  · rw [position_le]
    rcases h with h | ⟨h, hs⟩
    · exact Or.inl h
    · exact Or.inr ⟨h, by omega⟩

lemma lt_nextPosition (e : LeafEntry V) : e.pos < nextPosition e := by
  unfold nextPosition LeafEntry.pos
  split
  · exact position_lt.mpr (Or.inl (Bytes.lt_push_zero e.key))
  · exact position_lt.mpr (Or.inr ⟨rfl, by omega⟩)

/-- The entries at or after a position. -/
def fromPosition (p : Pos) (es : List (LeafEntry V)) : List (LeafEntry V) :=
  es.filter fun e => p ≤ e.pos

lemma fromPosition_eq_self {p : Pos} {es : List (LeafEntry V)} (h : ∀ e ∈ es, p ≤ e.pos) :
    fromPosition p es = es :=
  List.filter_eq_self.mpr fun e he => by simpa using h e he

lemma fromPosition_eq_nil {p : Pos} {es : List (LeafEntry V)} (h : ∀ e ∈ es, e.pos < p) :
    fromPosition p es = [] :=
  List.filter_eq_nil_iff.mpr fun e he => by simpa using h e he

lemma fromPosition_append (p : Pos) (l r : List (LeafEntry V)) :
    fromPosition p (l ++ r) = fromPosition p l ++ fromPosition p r :=
  List.filter_append ..

/-- What a scan that is at `s` still returns, before the limit cuts it. -/
def ScanState.pending (end_ : Option Bytes) (visible : ℕ) (s : ScanState V)
    (es : List (LeafEntry V)) : List (LeafEntry V) :=
  s.out ++ visibleRows end_ visible s.currentKey (fromPosition s.cursor es)

section Leaf
variable {limit : ℕ} {es tail : List (LeafEntry V)}

/-- A leaf, followed by the entries `tail`, either completes the scan or hands over what is
pending to the entries after it. -/
def LeafScanned (end_ : Option Bytes) (visible limit : ℕ) (es tail : List (LeafEntry V))
    (s : ScanState V) (advanced : Bool) : (ScanState V × Bool) ⊕ List (LeafEntry V) → Prop
  | .inr out => out = (s.pending end_ visible (es ++ tail)).take (max limit 1)
  | .inl (s', advanced') =>
    s'.pending end_ visible tail = s.pending end_ visible (es ++ tail) ∧
      s'.out.length < max limit 1 ∧ (∀ e ∈ es, e.pos < s'.cursor) ∧ s.cursor ≤ s'.cursor ∧
      ((advanced' = true ∧ (advanced = true ∨ ∃ e ∈ es, s.cursor ≤ e.pos)) ∨
        advanced' = advanced ∧ s' = s)

lemma scanLeaf_spec (end_ : Option Bytes) (visible : ℕ) {s : ScanState V} (advanced : Bool)
    (hs : (es ++ tail).Pairwise fun a b => a.pos < b.pos) (hb : ∀ e ∈ es ++ tail, e.seq ≤ u64Max)
    (hout : s.out.length < max limit 1) :
    LeafScanned end_ visible limit es tail s advanced
      (scanLeaf end_ visible limit es s advanced) := by
  induction es generalizing s advanced with
  | nil => exact ⟨rfl, hout, by simp, le_rfl, Or.inr ⟨rfl, rfl⟩⟩
  | cons e es ih =>
    rw [List.cons_append] at hs hb
    obtain ⟨he, hs'⟩ := List.pairwise_cons.mp hs
    have hb' : ∀ x ∈ es ++ tail, x.seq ≤ u64Max := fun x hx => hb x (List.mem_cons_of_mem _ hx)
    rw [scanLeaf]
    split
    · rename_i hlt
      have hskip : s.pending end_ visible (e :: es ++ tail) = s.pending end_ visible (es ++ tail) := by
        simp [ScanState.pending, fromPosition, hlt]
      have hrest := ih advanced hs' hb' hout
      revert hrest
      cases scanLeaf end_ visible limit es s advanced with
      | inr out => exact fun hrest => hrest.trans (congrArg _ hskip.symm)
      | inl r =>
        rintro ⟨hpend, hlen, hall, hcur, hadv⟩
        refine ⟨hpend.trans hskip.symm, hlen, ?_, hcur, ?_⟩
        · intro x hx
          rcases List.mem_cons.mp hx with rfl | hx
          · exact hlt.trans_le hcur
          · exact hall x hx
        · rcases hadv with ⟨h, h' | ⟨x, hx, hxc⟩⟩ | h
          · exact Or.inl ⟨h, Or.inl h'⟩
          · exact Or.inl ⟨h, Or.inr ⟨x, List.mem_cons_of_mem _ hx, hxc⟩⟩
          · exact Or.inr h
    rename_i hge
    rw [not_lt] at hge
    -- from here on the entries are `e` and everything after it
    have hfrom : fromPosition s.cursor (e :: es ++ tail) = e :: (es ++ tail) :=
      fromPosition_eq_self fun x hx => by
        rcases List.mem_cons.mp hx with rfl | hx
        · exact hge
        · exact hge.trans (he x hx).le
    have hnext : fromPosition (nextPosition e) (es ++ tail) = es ++ tail :=
      fromPosition_eq_self fun x hx => nextPosition_le (he x hx) (hb' x hx)
    have hcont (q : ScanState V) (hq : q.cursor = nextPosition e) (hqout : q.out.length < max limit 1)
        (hpend : q.out ++ visibleRows end_ visible q.currentKey (es ++ tail) =
          s.pending end_ visible (e :: es ++ tail)) :
        LeafScanned end_ visible limit (e :: es) tail s advanced
          (scanLeaf end_ visible limit es q true) := by
      have hq' : q.pending end_ visible (es ++ tail) = s.pending end_ visible (e :: es ++ tail) := by
        rw [← hpend, ScanState.pending, hq, hnext]
      have hrest := ih true hs' hb' hqout
      revert hrest
      cases scanLeaf end_ visible limit es q true with
      | inr out => exact fun hrest => hrest.trans (congrArg _ hq')
      | inl r =>
        rintro ⟨hpend', hlen, hall, hcur, hadv⟩
        have hecur : e.pos < r.1.cursor := (lt_nextPosition e).trans_le (hq ▸ hcur)
        refine ⟨hpend'.trans hq', hlen, ?_, hge.trans hecur.le,
          Or.inl ⟨?_, Or.inr ⟨e, List.mem_cons_self .., hge⟩⟩⟩
        · intro x hx
          rcases List.mem_cons.mp hx with rfl | hx
          · exact hecur
          · exact hall x hx
        · rcases hadv with ⟨h, -⟩ | ⟨h, -⟩
          · exact h
          · exact h
    split
    · rename_i hend
      rw [LeafScanned, ScanState.pending, hfrom, visibleRows, if_pos hend, List.append_nil,
        List.take_of_length_le hout.le]
    rename_i hend
    split
    · rename_i hcur
      refine hcont { s with cursor := nextPosition e } rfl hout ?_
      rw [ScanState.pending, hfrom, visibleRows, if_neg hend, if_pos hcur]
    rename_i hcur
    split
    · rename_i hvis
      have hpend : s.pending end_ visible (e :: es ++ tail) =
          (s.out ++ [e]) ++ visibleRows end_ visible (some e.key) (es ++ tail) := by
        rw [ScanState.pending, hfrom, visibleRows, if_neg hend, if_neg hcur, if_pos hvis]
        simp
      split
      · rename_i hlim
        have hlen : (s.out ++ [e]).length = max limit 1 := by
          rw [List.length_append, List.length_singleton] at hlim ⊢
          omega
        rw [LeafScanned, hpend, ← hlen, List.take_left]
      · rename_i hlim
        refine hcont ⟨nextPosition e, some e.key, s.out ++ [e]⟩ rfl ?_ hpend.symm
        exact (not_le.mp hlim).trans_le (le_max_left _ _)
    · rename_i hvis
      refine hcont { s with cursor := nextPosition e } rfl hout ?_
      rw [ScanState.pending, hfrom, visibleRows, if_neg hend, if_neg hcur, if_neg hvis]

end Leaf

namespace BTree
variable [ByteLen V] {t : BTree V} {end_ : Option Bytes} {visible limit : ℕ}

/-- Leaves that still hold an entry at or after a position. -/
def leavesFrom (t : BTree V) (p : Pos) : ℕ := (leaves t.root).countP fun es => es.any (p ≤ ·.pos)

/-- The scan has everything before its leaf behind it, its rows to come are those of `rows`, and it
needs at most two passes for each leaf that still holds an entry. -/
def ScanInv (t : BTree V) (end_ : Option Bytes) (visible limit : ℕ) (rows : List (LeafEntry V))
    (k : ℕ) (s : ScanState V × List ℕ) : Prop :=
  s.1.pending end_ visible t.entries = rows ∧ s.1.out.length < max limit 1 ∧
    ∃ before leaf after, At t.root s.2 before leaf after ∧
      (∀ e ∈ before.flatten, e.pos < s.1.cursor) ∧ (∀ e ∈ after.flatten, s.1.cursor ≤ e.pos) ∧
      k = 2 * t.leavesFrom s.1.cursor + if leaf.any (s.1.cursor ≤ ·.pos) then 0 else 1

lemma next_ne_nil {path : List ℕ} {before after : List (List (LeafEntry V))}
    {leaf next : List (LeafEntry V)} (hat : At t.root path before leaf (next :: after)) :
    next ≠ [] := by
  have hmem : next ∈ leaves t.root := by
    rw [hat.leaves_eq]
    simp
  obtain ⟨height, root, ordered, packed⟩ := t
  cases height with
  | zero => exact absurd hat.2.2.2 (by simp)
  | succ n =>
    obtain ⟨c, hc⟩ := List.exists_mem_of_ne_nil _ ordered.ne_nil
    exact packed.leaf_ne_nil (entries_ne_nil hc (packed.2.2 c hc).2.1) next hmem

omit [ByteLen V] in
lemma leavesFrom_mono {p q : Pos} (hpq : p ≤ q) (ls : List (List (LeafEntry V))) :
    (ls.countP fun es => es.any (q ≤ ·.pos)) ≤ ls.countP fun es => es.any (p ≤ ·.pos) := by
  refine List.countP_mono_left fun es _ hes => ?_
  simp only [List.any_eq_true, decide_eq_true_eq] at hes ⊢
  obtain ⟨e, he, hq⟩ := hes
  exact ⟨e, he, hpq.trans hq⟩

/-- A leaf that is left behind for good counts no more. -/
lemma leavesFrom_lt {path : List ℕ} {before after : List (List (LeafEntry V))}
    {leaf : List (LeafEntry V)} (hat : At t.root path before leaf after) {p q : Pos} (hpq : p ≤ q)
    (hp : ∃ e ∈ leaf, p ≤ e.pos) (hq : ∀ e ∈ leaf, e.pos < q) : t.leavesFrom q < t.leavesFrom p := by
  have hb := leavesFrom_mono hpq before
  have ha := leavesFrom_mono hpq after
  have hlp : leaf.any (p ≤ ·.pos) = true := by simpa using hp
  have hlq : leaf.any (q ≤ ·.pos) = false := by simpa using hq
  rw [leavesFrom, leavesFrom, hat.leaves_eq, List.countP_append, List.countP_cons,
    List.countP_append, List.countP_cons, hlp, hlq]
  simp only [if_true, Bool.false_eq_true, if_false]
  omega

omit [ByteLen V] in
lemma pending_of_behind {s : ScanState V} {l r : List (LeafEntry V)}
    (hl : ∀ e ∈ l, e.pos < s.cursor) :
    s.pending end_ visible (l ++ r) = s.pending end_ visible r := by
  rw [ScanState.pending, fromPosition_append, fromPosition_eq_nil hl, List.nil_append]
  rfl

lemma scanStep_cases (h : t.height < 64) {rows : List (LeafEntry V)} {k : ℕ}
    {s : ScanState V × List ℕ} (hinv : t.ScanInv end_ visible limit rows k s) :
    (∃ b, t.scanStep end_ visible limit s = .inr b ∧ b = .ok (rows.take (max limit 1))) ∨
      ∃ k' s', k' < k ∧ t.scanStep end_ visible limit s = .inl s' ∧
        t.ScanInv end_ visible limit rows k' s' := by
  obtain ⟨hpend, hout, before, leaf, after, hat, hbefore, hafter, rfl⟩ := hinv
  have hentries : t.entries = before.flatten ++ (leaf ++ after.flatten) := by
    rw [entries, hat.entries_eq, List.append_assoc]
  have hsorted := t.sorted_entries
  have hbound : ∀ e ∈ t.entries, e.seq ≤ u64Max := fun e he => (t.packed.of_mem e he).2
  rw [hentries] at hsorted hbound hpend
  rw [pending_of_behind hbefore] at hpend
  have hspec := scanLeaf_spec end_ visible false
    (List.pairwise_append.mp hsorted).2.1 (fun e he => hbound e (List.mem_append_right _ he)) hout
  rw [scanStep, hat.leafAt_eq]
  simp only
  split
  · rename_i out hleaf
    rw [hleaf] at hspec
    exact Or.inl ⟨_, rfl, by rw [hspec, hpend]⟩
  · -- nothing at or after the cursor in this leaf: go right
    rename_i s' hleaf
    rw [hleaf] at hspec
    obtain ⟨hpend', hout', hall, -, hadv⟩ := hspec
    obtain rfl : s' = s.1 := by simpa using hadv
    cases after with
    | nil =>
      rw [hat.rightPath_eq_none t.ordered.full]
      refine Or.inl ⟨_, rfl, ?_⟩
      rw [hpend] at hpend'
      have hrows : s.1.out = rows := by
        simpa [ScanState.pending, fromPosition, visibleRows] using hpend'
      rw [← hrows, List.take_of_length_le hout.le]
    | cons next after =>
      obtain ⟨path', hright, hat'⟩ := hat.rightPath_eq_some t.ordered.full
      rw [hright]
      refine Or.inr ⟨_, _, ?_, rfl, ?_, hout, _, next, after, hat', ?_, ?_, rfl⟩
      · obtain ⟨e, he⟩ := List.exists_mem_of_ne_nil _ (next_ne_nil hat)
        have hnext : next.any (s.1.cursor ≤ ·.pos) = true := by
          simp only [List.any_eq_true, decide_eq_true_eq]
          exact ⟨e, he, hafter e (by simp [he])⟩
        have hleaf' : leaf.any (s.1.cursor ≤ ·.pos) = false := by simpa using hall
        simp [hnext, hleaf']
      · rw [hentries, pending_of_behind hbefore, hpend]
      · intro e he
        rw [List.flatten_append, List.mem_append] at he
        rcases he with he | he
        · exact hbefore e he
        · exact hall e (by simpa using he)
      · exact fun e he => hafter e (by simp [he])
  · -- continue from the position after the last entry
    rename_i s' hleaf
    rw [hleaf] at hspec
    obtain ⟨hpend', hout', hall, hcur, hadv⟩ := hspec
    have hmet : ∃ e ∈ leaf, s.1.cursor ≤ e.pos := by simpa using hadv
    obtain ⟨path', before', leaf', after', hdesc, hat', hb', ha'⟩ := descend_eq h s'.cursor
    rw [hdesc]
    refine Or.inr ⟨_, _, ?_, rfl, ?_, hout', before', leaf', after', hat', hb',
      fun e he => (ha' e he).le, rfl⟩
    · have hlt := leavesFrom_lt hat hcur hmet hall
      have hleaf' : leaf.any (s.1.cursor ≤ ·.pos) = true := by simpa using hmet
      rw [hleaf']
      split <;> simp <;> omega
    · rw [hentries, ← List.append_assoc, pending_of_behind (fun e he => ?_), hpend', hpend]
      rcases List.mem_append.mp he with he | he
      · exact (hbefore e he).trans_le hcur
      · exact hall e he

/-- The walk of `scanVisible` over the leaves takes at most ten million passes. -/
def scanEnds (t : BTree V) (start : Bytes) (end_ : Option Bytes) (visible limit : ℕ) : Prop :=
  ∀ path, t.descend (position start u64Max) = .ok path →
    (loop (t.scanStep end_ visible limit) 10000000
      (⟨position start u64Max, none, []⟩, path)).isSome

/-- The rows of a range, all of them. -/
def rows (t : BTree V) (start : Bytes) (end_ : Option Bytes) (visible : ℕ) : List (LeafEntry V) :=
  visibleRows end_ visible none (fromPosition (position start u64Max) t.entries)

lemma scanInv_descend (h : t.height < 64) (start : Bytes) (end_ : Option Bytes)
    (visible limit : ℕ) :
    ∃ path k, t.descend (position start u64Max) = .ok path ∧
      t.ScanInv end_ visible limit (t.rows start end_ visible) k
        (⟨position start u64Max, none, []⟩, path) ∧ k ≤ 2 * (leaves t.root).length + 1 := by
  obtain ⟨path, before, leaf, after, hpath, hat, hb, ha⟩ := descend_eq h (position start u64Max)
  refine ⟨path, _, hpath, ⟨rfl, by simp, before, leaf, after, hat, hb, fun e he => (ha e he).le, rfl⟩,
    ?_⟩
  have hcount : t.leavesFrom (position start u64Max) ≤ (leaves t.root).length := List.countP_le_length
  split <;> simp only <;> omega

/-- A tree with fewer than five million leaves never exhausts the guard. -/
theorem scanEnds_of_leaves (h : t.height < 64) (hleaves : (leaves t.root).length < 4999999)
    (start : Bytes) (end_ : Option Bytes) (visible limit : ℕ) :
    t.scanEnds start end_ visible limit := by
  intro path hpath
  obtain ⟨path', k, hpath', hinv, hk⟩ := scanInv_descend h start end_ visible limit
  obtain rfl : path = path' := by rwa [hpath, Except.ok.injEq] at hpath'
  exact (loop_spec (fun _ _ => scanStep_cases h) hinv _).2 (by omega)

/-- A scan whose walk ends returns the first rows of its range, and one row for the limit zero. -/
theorem scanVisible_eq (h : t.height < 64) {start : Bytes}
    (hends : t.scanEnds start end_ visible limit) :
    t.scanVisible start end_ visible limit =
      .ok ((t.rows start end_ visible).take (max limit 1)) := by
  obtain ⟨path, k, hpath, hinv, -⟩ := scanInv_descend h start end_ visible limit
  obtain ⟨b, hb⟩ := Option.isSome_iff_exists.mp (hends path hpath)
  have hres := (loop_spec (fun _ _ => scanStep_cases h) hinv _).1 b hb
  rw [scanVisible, hpath]
  simp [hb, hres]

theorem scanEnds_of_eq_ok {start : Bytes} {out : List (LeafEntry V)}
    (hscan : t.scanVisible start end_ visible limit = .ok out) :
    t.scanEnds start end_ visible limit := by
  intro path hpath
  rw [scanVisible, hpath] at hscan
  by_contra hsome
  rw [Option.not_isSome_iff_eq_none] at hsome
  simp [hsome] at hscan

end BTree

end CarolinaDB.Storage
