import CarolinaDB.BTreeCompact

/-!
# Reads after reclaiming

A leaf decides the search for a version at or above the horizon by the same entry before
and after it was compacted, so the walk of a read goes the same way and ends at the same
place. A scan finds the same rows, but may need more passes to see that a leaf is done.
-/
namespace CarolinaDB

namespace PageTree
variable {P α : Type} {n : ℕ}

lemma leftmostPath_mapLeaves (f : List ℕ → List α → List α) (p : Page P α n) :
    leftmostPath (mapLeaves f p) = leftmostPath p := by
  induction n generalizing f with
  | zero => rfl
  | succ n ih =>
    cases p with
    | nil => rfl
    | cons c cs =>
      rw [mapLeaves, List.mapIdx_cons]
      exact congrArg (0 :: ·) (ih _ c.2)

lemma leafAt_mapLeaves (f : List ℕ → List α → List α) (p : Page P α n) (path : List ℕ) :
    leafAt (mapLeaves f p) path = (leafAt p path).map (f (path.take n)) := by
  induction n generalizing f path with
  | zero => rfl
  | succ n ih =>
    cases path with
    | nil => rfl
    | cons i path =>
      rw [leafAt, mapLeaves, List.getElem?_mapIdx, leafAt]
      cases (p : List (P × Page P α n))[i]? with
      | none => rfl
      | some c => exact ih _ c.2 path

lemma rightPath_mapLeaves (f : List ℕ → List α → List α) (p : Page P α n) (path : List ℕ) :
    rightPath (mapLeaves f p) path = rightPath p path := by
  induction n generalizing f path with
  | zero => rfl
  | succ n ih =>
    cases path with
    | nil => rfl
    | cons i path =>
      simp only [rightPath, mapLeaves, List.getElem?_mapIdx, Option.bind_map, Option.map_map,
        Function.comp_def, ih, leftmostPath_mapLeaves]

lemma descendPath_mapLeaves [LinearOrder P] (f : List ℕ → List α → List α) (p : Page P α n) (q : P) :
    descendPath (mapLeaves f p) q = descendPath p q := by
  induction n generalizing f with
  | zero => rfl
  | succ n ih =>
    have hindex : childIndex (mapLeaves f p) q = childIndex p q := by
      cases p with
      | nil => rfl
      | cons c cs =>
        rw [mapLeaves, List.mapIdx_cons, childIndex, childIndex, List.tail_cons, List.tail_cons]
        have hseps (g : ℕ → P × Page P α n → Page P α n) : ((cs.mapIdx fun i c => (c.1, g i c)).takeWhile
            fun c => decide (c.1 ≤ q)).length = (cs.takeWhile fun c => decide (c.1 ≤ q)).length := by
          induction cs generalizing g with
          | nil => rfl
          | cons d cs ihcs =>
            rw [List.mapIdx_cons, List.takeWhile_cons, List.takeWhile_cons]
            dsimp only
            split
            · rw [List.length_cons, List.length_cons, ihcs fun i => g (i + 1)]
            · rfl
        exact hseps _
    rw [descendPath, hindex, mapLeaves, List.getElem?_mapIdx, descendPath, Option.bind_map]
    simp only [Function.comp_def, ih]

/-- A tree with two children on every level: its leaves from leaf `b` on, and the separators
between them. -/
def perfect (first : P) (leaf : ℕ → List α) (sep : ℕ → P) : (n b : ℕ) → Page P α n
  | 0, b => leaf b
  | n + 1, b => [(first, perfect first leaf sep n b),
      (sep (b + 2 ^ n), perfect first leaf sep n (b + 2 ^ n))]

/-- The path to the leaf at an index. -/
def bits : ℕ → ℕ → List ℕ
  | 0, _ => []
  | n + 1, j => if j < 2 ^ n then 0 :: bits n j else 1 :: bits n (j - 2 ^ n)

section Perfect
variable {first : P} {leaf : ℕ → List α} {sep : ℕ → P} {b j : ℕ}

lemma leafAt_perfect (hj : j < 2 ^ n) :
    leafAt (perfect first leaf sep n b) (bits n j) = some (leaf (b + j)) := by
  induction n generalizing b j with
  | zero =>
    obtain rfl : j = 0 := by omega
    rfl
  | succ n ih =>
    rw [pow_succ] at hj
    rw [bits]
    split_ifs with hlt
    · exact ih hlt
    · refine (ih (b := b + 2 ^ n) (by omega)).trans ?_
      rw [show b + 2 ^ n + (j - 2 ^ n) = b + j by omega]

lemma leftmostPath_perfect : leftmostPath (perfect first leaf sep n b) = bits n 0 := by
  induction n with
  | zero => rfl
  | succ n ih =>
    rw [bits, if_pos (Nat.two_pow_pos n), ← ih]
    rfl

lemma rightPath_perfect_left (path : List ℕ) :
    rightPath (perfect first leaf sep (n + 1) b) (0 :: path) =
      match rightPath (perfect first leaf sep n b) path with
      | some path' => some (0 :: path')
      | none => some (1 :: bits n 0) := by
  rw [← @leftmostPath_perfect _ _ n first leaf sep (b + 2 ^ n)]
  rfl

lemma rightPath_perfect_right (path : List ℕ) :
    rightPath (perfect first leaf sep (n + 1) b) (1 :: path) =
      match rightPath (perfect first leaf sep n (b + 2 ^ n)) path with
      | some path' => some (1 :: path')
      | none => none :=
  rfl

lemma rightPath_perfect (hj : j < 2 ^ n) : rightPath (perfect first leaf sep n b) (bits n j) =
    if j + 1 < 2 ^ n then some (bits n (j + 1)) else none := by
  induction n generalizing b j with
  | zero =>
    rw [if_neg (by omega)]
    rfl
  | succ n ih =>
    have hpow : 2 ^ (n + 1) = 2 ^ n + 2 ^ n := by rw [pow_succ, Nat.mul_two]
    by_cases hlt : j < 2 ^ n
    · rw [bits, if_pos hlt, rightPath_perfect_left, ih hlt, if_pos (by omega : j + 1 < 2 ^ (n + 1)), bits]
      by_cases hnext : j + 1 < 2 ^ n
      · rw [if_pos hnext, if_pos hnext]
      · rw [if_neg hnext, if_neg hnext, show j + 1 - 2 ^ n = 0 by omega]
    · rw [bits, if_neg hlt, rightPath_perfect_right, ih (by omega)]
      by_cases hnext : j + 1 < 2 ^ (n + 1)
      · rw [if_pos hnext, if_pos (by omega), bits, if_neg (by omega),
          show j + 1 - 2 ^ n = j - 2 ^ n + 1 by omega]
      · rw [if_neg hnext, if_neg (by omega)]

variable [LinearOrder P]

/-- Descending to a position that lies behind the separators up to leaf `j`. -/
lemma descendPath_perfect {q : P} (hq : ∀ i, b < i → i < b + 2 ^ n → (sep i ≤ q ↔ i ≤ b + j))
    (hj : j < 2 ^ n) : descendPath (perfect first leaf sep n b) q = some (bits n j) := by
  induction n generalizing b j with
  | zero => rfl
  | succ n ih =>
    have hpow : 2 ^ (n + 1) = 2 ^ n + 2 ^ n := by rw [pow_succ, Nat.mul_two]
    have hpos := Nat.two_pow_pos n
    have hmid := hq (b + 2 ^ n) (by omega) (by omega)
    rw [descendPath, bits]
    by_cases hlt : j < 2 ^ n
    · have hindex : childIndex (perfect first leaf sep (n + 1) b) q = 0 := by
        have hnot : ¬ sep (b + 2 ^ n) ≤ q := fun h => by
          have := hmid.mp h
          omega
        simp [perfect, childIndex, hnot]
      have hchild := ih (b := b) (fun i hi hi' => hq i hi (by omega)) hlt
      rw [hindex, if_pos hlt]
      change (descendPath (perfect first leaf sep n b) q).map (0 :: ·) = _
      rw [hchild, Option.map_some]
    · have hindex : childIndex (perfect first leaf sep (n + 1) b) q = 1 := by
        have hle : sep (b + 2 ^ n) ≤ q := hmid.mpr (by omega)
        simp [perfect, childIndex, hle]
      have hchild := ih (b := b + 2 ^ n) (j := j - 2 ^ n) (fun i hi hi' => by
        rw [hq i (by omega) (by omega)]
        omega) (by omega)
      rw [hindex, if_neg hlt]
      change (descendPath (perfect first leaf sep n (b + 2 ^ n)) q).map (1 :: ·) = _
      rw [hchild, Option.map_some]

lemma ordered_perfect {pos : α → P} {lo hi : Bound P}
    (hleaf : ∀ i, b ≤ i → i < b + 2 ^ n → sep i < sep (i + 1) ∧
      (leaf i).Pairwise (fun a c => pos a < pos c) ∧ ∀ e ∈ leaf i, sep i ≤ pos e ∧ pos e < sep (i + 1))
    (hlo : lo ≤ Bound.of (sep b)) (hhi : Bound.of (sep (b + 2 ^ n)) ≤ hi) :
    Ordered first pos lo hi (perfect first leaf sep n b) := by
  induction n generalizing b lo hi with
  | zero =>
    obtain ⟨hlt, hsorted, hmem⟩ := hleaf b le_rfl (by simp)
    refine ⟨hlo.trans_lt ((Bound.of_lt_of.mpr hlt).trans_le hhi), hsorted, fun e he => ?_⟩
    exact ⟨hlo.trans (Bound.of_le_of.mpr (hmem e he).1),
      (Bound.of_lt_of.mpr (hmem e he).2).trans_le hhi⟩
  | succ n ih =>
    have hpow : 2 ^ (n + 1) = 2 ^ n + 2 ^ n := by rw [pow_succ, Nat.mul_two]
    refine ⟨rfl, ih (fun i hi hi' => hleaf i hi (by omega)) hlo le_rfl, ?_⟩
    refine ih (fun i hi hi' => hleaf i (by omega) (by omega)) le_rfl ?_
    rwa [Nat.add_assoc, ← hpow]

end Perfect

end PageTree

namespace Storage

open PageTree Loop

variable {V : Type}

section Leaf
variable {horizon visible : ℕ} {es : List (LeafEntry V)} {key : Bytes}

/-- What is dropped is behind a kept entry of the same key that is as visible, so it is reached by
the search for a later key only. -/
lemma searchLeaf_compactVersions (hv : horizon ≤ visible) {below : Option Bytes}
    (hbelow : ∀ k ∈ below, k < key) :
    searchLeaf key visible (compactVersions horizon below es) = searchLeaf key visible es := by
  induction es generalizing below with
  | nil => rfl
  | cons e es ih =>
    rw [compactVersions]
    by_cases hnew : horizon < e.seq
    · rw [if_pos hnew, searchLeaf, searchLeaf, ih hbelow]
    rw [if_neg hnew]
    by_cases hdrop : below = some e.key
    · rw [if_pos hdrop, ih hbelow, searchLeaf, if_pos (hbelow e.key hdrop)]
    · rw [if_neg hdrop, searchLeaf, searchLeaf]
      by_cases hlt : e.key < key
      · rw [if_pos hlt, if_pos hlt]
        exact ih fun k hk => Option.some.inj hk ▸ hlt
      · rw [if_neg hlt, if_neg hlt, if_pos (show e.seq ≤ visible by omega),
          if_pos (show e.seq ≤ visible by omega)]

lemma searchLeaf_persistLeaf (hv : horizon ≤ visible) (visited : Bool) :
    searchLeaf key visible (persistLeaf (some horizon) visited es) = searchLeaf key visible es := by
  cases visited with
  | false => rfl
  | true =>
    change searchLeaf key visible (compactLeaf horizon es) = _
    rw [compactLeaf]
    split_ifs
    · exact searchLeaf_compactVersions hv (by simp)
    · rfl

/-- A leaf that does not decide the search ends at or before the key. -/
lemma not_any_getLast_of_searchLeaf (h : searchLeaf key visible es = none) :
    es.getLast?.any (fun e => key < e.key) = false := by
  rcases searchLeaf_cases key visible es with ⟨-, hall⟩ | ⟨l, e, r, -, -, ⟨hdec, -⟩ | ⟨hdec, -⟩⟩
  · cases hlast : es.getLast? with
    | none => rfl
    | some e =>
      rcases hall e (List.mem_of_getLast? hlast) with hlt | ⟨heq, -⟩
      · simpa using hlt.le
      · simp [heq]
  · rw [h] at hdec
    cases hdec
  · rw [h] at hdec
    cases hdec

/-- Compacting a list of versions keeps the newest version that is visible from the horizon on. -/
lemma isNewest_compactVersions (hs : es.Pairwise fun a b => a.pos < b.pos) (hv : horizon ≤ visible)
    (r : Option (LeafEntry V)) :
    IsNewest (compactVersions horizon none es) key visible r ↔ IsNewest es key visible r := by
  have hsub : ∀ x ∈ compactVersions horizon none es, x ∈ es :=
    fun x hx => (compactVersions_sublist none).subset hx
  have hdropped : ∀ x ∈ es, x ∈ compactVersions horizon none es ∨
      ∃ y ∈ compactVersions horizon none es, y.key = x.key ∧ x.seq < y.seq ∧ y.seq ≤ visible := by
    intro x hx
    have hcases : x ∈ compactVersions horizon none es ∨ _ ∨ _ := compactVersions_dropped hs hx
    rcases hcases with h | ⟨-, h⟩ | ⟨y, hy, hk, hlt, hle⟩
    · exact Or.inl h
    · cases h
    · exact Or.inr ⟨y, hy, hk, hlt, hle.trans hv⟩
  cases r with
  | none =>
    refine ⟨fun h x hx hk => ?_, fun h x hx hk => h x (hsub x hx) hk⟩
    rcases hdropped x hx with hkept | ⟨y, hy, hyk, -, hle⟩
    · exact h x hkept hk
    · exact absurd (h y hy (hyk.trans hk)) (not_lt.mpr hle)
  | some e =>
    constructor
    · rintro ⟨he, hk, hseq, hmax⟩
      refine ⟨hsub e he, hk, hseq, fun x hx hxk hxv => ?_⟩
      rcases hdropped x hx with hkept | ⟨y, hy, hyk, hlt, hle⟩
      · exact hmax x hkept hxk hxv
      · exact hlt.le.trans (hmax y hy (hyk.trans hxk) hle)
    · rintro ⟨he, hk, hseq, hmax⟩
      refine ⟨?_, hk, hseq, fun x hx hxk hxv => hmax x (hsub x hx) hxk hxv⟩
      rcases hdropped e he with hkept | ⟨y, hy, hyk, hlt, hle⟩
      · exact hkept
      · exact absurd (hmax y (hsub y hy) (hyk.trans hk) hle) (not_le.mpr hlt)

end Leaf

namespace BTree
variable [ByteLen V] {t : BTree V} {horizon visible : ℕ} {visited : List ℕ → Bool}

lemma descend_persistWithGc (gcHorizon : Option ℕ) (p : Pos) :
    (t.persistWithGc gcHorizon visited).descend p = t.descend p := by
  simp only [descend, persistWithGc, descendPath_mapLeaves]

lemma getStep_persistWithGc (hv : horizon ≤ visible) (key : Bytes) (path : List ℕ) :
    (t.persistWithGc (some horizon) visited).getStep key visible path = t.getStep key visible path := by
  simp only [getStep, persistWithGc, leafAt_mapLeaves, rightPath_mapLeaves]
  cases leafAt t.root path with
  | none => rfl
  | some es =>
    simp only [Option.map_some, searchLeaf_persistLeaf hv]
    cases hsearch : searchLeaf key visible es with
    | some found => rfl
    | none =>
      have hpersisted : searchLeaf key visible
          (persistLeaf (some horizon) (visited (path.take t.height)) es) = none :=
        (searchLeaf_persistLeaf hv _).trans hsearch
      rw [not_any_getLast_of_searchLeaf hsearch, not_any_getLast_of_searchLeaf hpersisted]

/-- A read of a version goes the same way, step by step. -/
theorem getVersion_persistWithGc (hv : horizon ≤ visible) (key : Bytes) :
    (t.persistWithGc (some horizon) visited).getVersion key visible = t.getVersion key visible := by
  have hstep : (t.persistWithGc (some horizon) visited).getStep key visible = t.getStep key visible :=
    funext (getStep_persistWithGc hv key)
  rw [getVersion, getVersion, descend_persistWithGc, hstep]

lemma rows_persistWithGc (hv : horizon ≤ visible) (start : Bytes) (end_ : Option Bytes) :
    (t.persistWithGc (some horizon) visited).rows start end_ visible = t.rows start end_ visible := by
  have hagree : Versions.AgreeFrom horizon t.versions
      (t.persistWithGc (some horizon) visited).versions :=
    versions_persistWithGc horizon fun h hh => (Option.some.inj hh).ge
  obtain ⟨hsorted, hmem⟩ := t.isRows_rows start end_ visible
  refine (isRows_rows _ start end_ visible).unique ⟨hsorted, fun e => ?_⟩
  rw [hmem, hagree e.key visible hv]

/-- A scan returns the same rows, if its walks end within the guard before and after. -/
theorem scanVisible_persistWithGc (hv : horizon ≤ visible) {start : Bytes} {end_ : Option Bytes}
    {limit : ℕ} (hends : t.scanEnds start end_ visible limit)
    (hends' : (t.persistWithGc (some horizon) visited).scanEnds start end_ visible limit) :
    (t.persistWithGc (some horizon) visited).scanVisible start end_ visible limit =
      t.scanVisible start end_ visible limit := by
  by_cases hheight : t.height < 64
  · rw [scanVisible_eq hheight hends, scanVisible_eq (t := t.persistWithGc (some horizon) visited)
      hheight hends', rows_persistWithGc hv]
  · rw [scanVisible, scanVisible, descend_persistWithGc, descend, if_neg hheight]

end BTree

section Thin

open BTree

/-- A version of the key `[0]`. -/
def thinEntry (seq : ℕ) : LeafEntry Bytes := ⟨[0], seq, Octets.zero 32, 0, [], .inline []⟩

/-- Leaf `i` holds two of the versions from `2 ^ (n + 1)` down to one. -/
def thinLeaf (n i : ℕ) : List (LeafEntry Bytes) :=
  [thinEntry (2 ^ (n + 1) - 2 * i), thinEntry (2 ^ (n + 1) - 2 * i - 1)]

def thinSep (n i : ℕ) : Pos := position [0] (2 ^ (n + 1) - 2 * i)

lemma packed_perfect {leaf : ℕ → List (LeafEntry Bytes)} {sep : ℕ → Pos} {n b : ℕ}
    (hleaf : ∀ i, leaf i ≠ [] ∧ fitPage ((leaf i).map LeafEntry.encodedLen) ∧ ∀ e ∈ leaf i, EntryBound e)
    (hsep : ∀ i, separatorLen (sep i) = 19) :
    entries (perfect leftmost leaf sep n b) ≠ [] ∧
      Packed EntryBound SepBound (perfect leftmost leaf sep n b) := by
  induction n generalizing b with
  | zero =>
    refine ⟨?_, (hleaf b).2⟩
    change [leaf b].flatten ≠ []
    rw [List.flatten_singleton]
    exact (hleaf b).1
  | succ n ih =>
    have hfirst : separatorLen leftmost = 18 := rfl
    refine ⟨?_, le_rfl, ?_, fun c hc => ?_⟩
    · exact entries_ne_nil List.mem_cons_self (ih (b := b)).1
    · simp [perfect, fitPage, hsep, hfirst, pageHeaderLen, pageSize]
    · simp only [perfect, List.mem_cons, List.not_mem_nil, or_false] at hc
      rcases hc with rfl | rfl
      · exact ⟨sepBound_leftmost, ih⟩
      · refine ⟨?_, ih⟩
        have hlen : 18 + (ofLex (sep (b + 2 ^ n))).1.length = 19 := hsep _
        change (ofLex (sep (b + 2 ^ n))).1.length ≤ 2048
        omega

lemma thinTree_ordered (n : ℕ) : InOrder ⊥ ⊤ (perfect leftmost (thinLeaf n) (thinSep n) n 0) := by
  refine ordered_perfect (fun i _ hi => ?_) bot_le le_top
  have hpow : 2 ^ (n + 1) = 2 ^ n + 2 ^ n := by rw [pow_succ, Nat.mul_two]
  refine ⟨?_, ?_, fun e he => ?_⟩
  · rw [thinSep, thinSep, position_lt]
    exact Or.inr ⟨rfl, by omega⟩
  · refine List.pairwise_pair.mpr ?_
    rw [LeafEntry.pos, LeafEntry.pos, position_lt]
    exact Or.inr ⟨rfl, by dsimp only [thinEntry]; omega⟩
  · simp only [thinLeaf, List.mem_cons, List.not_mem_nil, or_false] at he
    rw [thinSep, thinSep, LeafEntry.pos, position_le, position_lt]
    rcases he with rfl | rfl
    · exact ⟨Or.inr ⟨rfl, le_rfl⟩, Or.inr ⟨rfl, by dsimp only [thinEntry]; omega⟩⟩
    · exact ⟨Or.inr ⟨rfl, by dsimp only [thinEntry]; omega⟩,
        Or.inr ⟨rfl, by dsimp only [thinEntry]; omega⟩⟩

lemma thinTree_packed {n : ℕ} (hn : n < 63) :
    Packed EntryBound SepBound (perfect leftmost (thinLeaf n) (thinSep n) n 0) := by
  refine (packed_perfect (fun i => ⟨List.cons_ne_nil _ _, rfl, fun e he => ?_⟩) fun i => rfl).2
  have hpow : 2 ^ (n + 1) ≤ 2 ^ 63 := Nat.pow_le_pow_right (by norm_num) hn
  have hkey (seq : ℕ) : (thinEntry seq).key.length ≤ maxKeyLen := show 1 ≤ 2048 by norm_num
  simp only [List.mem_cons, List.not_mem_nil, or_false] at he
  rcases he with rfl | rfl
  · exact ⟨hkey _, by simp only [thinEntry, u64Max]; omega⟩
  · exact ⟨hkey _, by simp only [thinEntry, u64Max]; omega⟩

/-- A tree with two versions in every leaf. -/
def thinTree (n : ℕ) (hn : n < 63) : BTree Bytes :=
  ⟨n, perfect leftmost (thinLeaf n) (thinSep n) n 0, thinTree_ordered n, thinTree_packed hn⟩

/-- The newest version has been emitted and the cursor is in front of a version. -/
def thinScan (n cursor : ℕ) : ScanState Bytes := ⟨position [0] cursor, some [0], [thinEntry (2 ^ (n + 1))]⟩

lemma thinScan_pass {n cursor seq : ℕ} (hle : seq ≤ cursor) (hseq : seq ≠ 0)
    (es : List (LeafEntry Bytes)) (visible limit : ℕ) (advanced : Bool) :
    scanLeaf none visible limit (thinEntry seq :: es) (thinScan n cursor) advanced =
      scanLeaf none visible limit es (thinScan n (seq - 1)) true := by
  have hpos : ¬ (thinEntry seq).pos < (thinScan n cursor).cursor := by
    rw [not_lt, thinScan, LeafEntry.pos, position_le]
    exact Or.inr ⟨rfl, hle⟩
  have hkey : (thinScan n cursor).currentKey = some (thinEntry seq).key := rfl
  rw [scanLeaf, if_neg hpos, if_neg (by simp), if_pos hkey]
  simp [thinScan, nextPosition, thinEntry, hseq]

lemma thinScan_skip {n cursor seq : ℕ} (hlt : cursor < seq) (es : List (LeafEntry Bytes))
    (visible limit : ℕ) (advanced : Bool) :
    scanLeaf none visible limit (thinEntry seq :: es) (thinScan n cursor) advanced =
      scanLeaf none visible limit es (thinScan n cursor) advanced := by
  have hpos : (thinEntry seq).pos < position [0] cursor := by
    rw [LeafEntry.pos, position_lt]
    exact Or.inr ⟨rfl, hlt⟩
  rw [scanLeaf]
  exact if_pos hpos

/-- The first version is emitted. -/
lemma thinScan_start (n : ℕ) (es : List (LeafEntry Bytes)) :
    scanLeaf none (2 ^ (n + 1)) 2 (thinEntry (2 ^ (n + 1)) :: es) ⟨position [] u64Max, none, []⟩ false =
      scanLeaf none (2 ^ (n + 1)) 2 es (thinScan n (2 ^ (n + 1) - 1)) true := by
  have hpos : ¬ (thinEntry (2 ^ (n + 1))).pos < position [] u64Max := by
    rw [not_lt, LeafEntry.pos, position_le]
    exact Or.inl (by change ([] : Bytes) < [0]; decide)
  rw [scanLeaf, if_neg hpos]
  simp [thinScan, nextPosition, thinEntry]

/-- Descending to a version of the thin tree. -/
lemma descend_thin {n : ℕ} (hn : n < 63) {i cursor : ℕ} (hi : i < 2 ^ n)
    (hcursor : cursor ≤ 2 ^ (n + 1) - 2 * i)
    (hnext : i + 1 < 2 ^ n → 2 ^ (n + 1) - 2 * (i + 1) < cursor) :
    (thinTree n hn).descend (position [0] cursor) = .ok (bits n i) := by
  have hpow : 2 ^ (n + 1) = 2 ^ n + 2 ^ n := by rw [pow_succ, Nat.mul_two]
  have hpath : descendPath (thinTree n hn).root (position [0] cursor) = some (bits n i) := by
    refine descendPath_perfect (fun j _ hj => ?_) hi
    change j < 0 + 2 ^ n at hj
    rw [thinSep, position_le]
    constructor
    · rintro (h | ⟨-, h⟩)
      · exact absurd h (lt_irrefl _)
      · by_contra hlt
        have := hnext (by omega)
        omega
    · intro h
      exact Or.inr ⟨rfl, by omega⟩
  rw [descend, if_pos (show (thinTree n hn).height < 64 from hn.trans (by norm_num)), hpath]

lemma descend_thin_start {n : ℕ} (hn : n < 63) :
    (thinTree n hn).descend (position [] u64Max) = .ok (bits n 0) := by
  have hpath : descendPath (thinTree n hn).root (position [] u64Max) = some (bits n 0) := by
    refine descendPath_perfect (fun j hj _ => ?_) (Nat.two_pow_pos n)
    have hlt : position [] u64Max < thinSep n j := by
      rw [thinSep, position_lt]
      exact Or.inl (by decide)
    constructor
    · intro h
      exact absurd h (not_le.mpr hlt)
    · intro h
      omega
  rw [descend, if_pos (show (thinTree n hn).height < 64 from hn.trans (by norm_num)), hpath]

lemma rightPath_thin {n : ℕ} (hn : n < 63) {i : ℕ} (hi : i < 2 ^ n) :
    rightPath (thinTree n hn).root (bits n i) =
      if i + 1 < 2 ^ n then some (bits n (i + 1)) else none :=
  rightPath_perfect hi

section Passes
variable {n : ℕ} (hn : n < 63)

/-- One pass for a leaf: the separator of the next one is right behind its last version. -/
def fullPass (n : ℕ) : ℕ → ScanState Bytes × List ℕ
  | 0 => (⟨position [] u64Max, none, []⟩, bits n 0)
  | i + 1 => (thinScan n (2 ^ (n + 1) - 2 * (i + 1)), bits n (min (i + 1) (2 ^ n - 1)))

lemma scanStep_fullPass {i : ℕ} (hi : i < 2 ^ n) :
    (thinTree n hn).scanStep none (2 ^ (n + 1)) 2 (fullPass n i) = .inl (fullPass n (i + 1)) := by
  have hpow : 2 ^ (n + 1) = 2 ^ n + 2 ^ n := by rw [pow_succ, Nat.mul_two]
  have hpath : (fullPass n i).2 = bits n i := by
    cases i with
    | zero => rfl
    | succ i => exact congrArg (bits n) (by omega)
  have hleaf : leafAt (thinTree n hn).root (fullPass n i).2 = some (thinLeaf n i) := by
    rw [hpath]
    refine (leafAt_perfect hi).trans ?_
    rw [Nat.zero_add]
  have hscan : scanLeaf none (2 ^ (n + 1)) 2 (thinLeaf n i) (fullPass n i).1 false =
      .inl (thinScan n (2 ^ (n + 1) - 2 * (i + 1)), true) := by
    rw [thinLeaf]
    cases i with
    | zero =>
      refine (thinScan_start n _).trans ?_
      rw [thinScan_pass (by omega) (by omega), scanLeaf]
      exact congrArg (fun c => Sum.inl (thinScan n c, true)) (by omega)
    | succ i =>
      refine (thinScan_pass le_rfl (by omega) _ _ _ _).trans ?_
      rw [thinScan_pass le_rfl (by omega), scanLeaf]
      exact congrArg (fun c => Sum.inl (thinScan n c, true)) (by omega)
  have hdescend : (thinTree n hn).descend (thinScan n (2 ^ (n + 1) - 2 * (i + 1))).cursor =
      .ok (bits n (min (i + 1) (2 ^ n - 1))) :=
    descend_thin hn (by omega) (by omega) fun h => by omega
  rw [scanStep, hleaf]
  simp only [hscan, hdescend]
  rfl

/-- After the last leaf no version is left. -/
lemma scanStep_fullPass_last : (thinTree n hn).scanStep none (2 ^ (n + 1)) 2 (fullPass n (2 ^ n)) =
    .inr (.ok [thinEntry (2 ^ (n + 1))]) := by
  have hpow : 2 ^ (n + 1) = 2 ^ n + 2 ^ n := by rw [pow_succ, Nat.mul_two]
  have hpos : 0 < 2 ^ n := Nat.two_pow_pos n
  have hstate : fullPass n (2 ^ n) = (thinScan n 0, bits n (2 ^ n - 1)) := by
    obtain ⟨i, hi⟩ := Nat.exists_eq_add_one.mpr hpos
    rw [hi, fullPass]
    exact congrArg₂ (fun c j => (thinScan n c, bits n j)) (by omega) (by omega)
  have hleaf : leafAt (thinTree n hn).root (bits n (2 ^ n - 1)) = some (thinLeaf n (2 ^ n - 1)) := by
    refine (leafAt_perfect (Nat.sub_one_lt hpos.ne')).trans ?_
    rw [Nat.zero_add]
  have hscan : scanLeaf none (2 ^ (n + 1)) 2 (thinLeaf n (2 ^ n - 1)) (thinScan n 0) false =
      .inl (thinScan n 0, false) := by
    rw [thinLeaf, thinScan_skip (by omega), thinScan_skip (by omega), scanLeaf]
  have hright : rightPath (thinTree n hn).root (bits n (2 ^ n - 1)) = none :=
    (rightPath_thin hn (by omega)).trans (if_neg (by omega))
  rw [hstate, scanStep, hleaf]
  simp only [hscan, hright]
  rfl

/-- Two passes for a leaf that lost its last version. -/
def halfPass (n : ℕ) : ℕ → ScanState Bytes × List ℕ
  | 0 => (⟨position [] u64Max, none, []⟩, bits n 0)
  | k + 1 => (thinScan n (2 ^ (n + 1) - 2 * (k / 2) - 1), bits n ((k + 1) / 2))

lemma leafAt_thin_compacted {i : ℕ} (hi : i < 2 ^ n) :
    leafAt ((thinTree n hn).persistWithGc (some (2 ^ (n + 1))) fun _ => true).root (bits n i) =
      some [thinEntry (2 ^ (n + 1) - 2 * i)] := by
  have hpow : 2 ^ (n + 1) = 2 ^ n + 2 ^ n := by rw [pow_succ, Nat.mul_two]
  have hleaf : leafAt (thinTree n hn).root (bits n i) = some (thinLeaf n i) := by
    refine (leafAt_perfect hi).trans ?_
    rw [Nat.zero_add]
  have hkept : compactVersions (2 ^ (n + 1)) none (thinLeaf n i) =
      [thinEntry (2 ^ (n + 1) - 2 * i)] := by
    rw [thinLeaf, compactVersions, if_neg (by simp [thinEntry]), if_neg (by simp), compactVersions,
      if_neg (by dsimp only [thinEntry]; omega)]
    rfl
  rw [persistWithGc, leafAt_mapLeaves, hleaf, Option.map_some]
  change some (compactLeaf (2 ^ (n + 1)) (thinLeaf n i)) = _
  rw [compactLeaf, hkept]
  rfl

lemma halfPass_succ {k c j : ℕ} (hc : 2 ^ (n + 1) - 2 * (k / 2) - 1 = c) (hj : (k + 1) / 2 = j) :
    halfPass n (k + 1) = (thinScan n c, bits n j) := by
  rw [halfPass, hc, hj]

lemma scanStep_halfPass {k : ℕ} (hk : (k + 1) / 2 < 2 ^ n) :
    ((thinTree n hn).persistWithGc (some (2 ^ (n + 1))) fun _ => true).scanStep none (2 ^ (n + 1)) 2
      (halfPass n k) = .inl (halfPass n (k + 1)) := by
  have hpow : 2 ^ (n + 1) = 2 ^ n + 2 ^ n := by rw [pow_succ, Nat.mul_two]
  have hpath : (halfPass n k).2 = bits n (k / 2) := by
    cases k with
    | zero => rfl
    | succ k => rfl
  rw [scanStep, hpath, leafAt_thin_compacted hn (by omega)]
  rcases Nat.even_or_odd' k with ⟨i, rfl | rfl⟩
  · -- the version of the leaf is met, and the descent comes back to the leaf
    have hscan : scanLeaf none (2 ^ (n + 1)) 2 [thinEntry (2 ^ (n + 1) - 2 * (2 * i / 2))]
        (halfPass n (2 * i)).1 false = .inl (thinScan n (2 ^ (n + 1) - 2 * i - 1), true) := by
      rw [Nat.mul_div_cancel_left i (by norm_num)]
      cases i with
      | zero => exact thinScan_start n []
      | succ i =>
        rw [show 2 * (i + 1) = 2 * i + 1 + 1 by omega, halfPass_succ rfl rfl]
        exact thinScan_pass (by omega) (by omega) [] _ _ _
    have hdescend : ((thinTree n hn).persistWithGc (some (2 ^ (n + 1))) fun _ => true).descend
        (thinScan n (2 ^ (n + 1) - 2 * i - 1)).cursor = .ok (bits n i) := by
      rw [descend_persistWithGc]
      exact descend_thin hn (by omega) (by omega) fun h => by omega
    simp only [hscan, hdescend]
    rw [halfPass_succ (by omega : _ = 2 ^ (n + 1) - 2 * i - 1) (by omega : _ = i)]
  · -- nothing is left behind the cursor, so the walk goes right
    have hscan : scanLeaf none (2 ^ (n + 1)) 2 [thinEntry (2 ^ (n + 1) - 2 * ((2 * i + 1) / 2))]
        (halfPass n (2 * i + 1)).1 false = .inl (thinScan n (2 ^ (n + 1) - 2 * i - 1), false) := by
      rw [halfPass_succ (by omega : _ = 2 ^ (n + 1) - 2 * i - 1) rfl]
      exact thinScan_skip (by omega) [] _ _ _
    have hright : rightPath ((thinTree n hn).persistWithGc (some (2 ^ (n + 1))) fun _ => true).root
        (bits n ((2 * i + 1) / 2)) = some (bits n (i + 1)) := by
      rw [persistWithGc, rightPath_mapLeaves, show (2 * i + 1) / 2 = i by omega]
      exact (rightPath_thin hn (by omega)).trans (if_pos (by omega))
    simp only [hscan, hright]
    rw [halfPass_succ (by omega : _ = 2 ^ (n + 1) - 2 * i - 1) (by omega : _ = i + 1)]

end Passes

end Thin

end Storage

end CarolinaDB
