import CarolinaDB.BTree

/-!
# What reads of the tree return

`getVersion` finds the newest visible version of a key and `scanVisible` the
newest visible versions of a range, in key order. Both say so only if their walk
over the leaves ends within its guard, and short enough trees make it end.
-/
namespace CarolinaDB.Storage

open PageTree Loop

variable {V : Type} [ByteLen V] {t : BTree V}

namespace BTree

lemma sorted_entries (t : BTree V) : t.entries.Pairwise fun a b => a.pos < b.pos :=
  t.ordered.within.1

lemma descend_eq (h : t.height < 64) (p : Pos) :
    ∃ path before leaf after, t.descend p = .ok path ∧ At t.root path before leaf after ∧
      (∀ e ∈ before.flatten, e.pos < p) ∧ ∀ e ∈ after.flatten, p < e.pos := by
  obtain ⟨path, before, leaf, after, hpath, hat, hb, ha⟩ :=
    t.ordered.at_descendPath (bot_le : (⊥ : Bound Pos) ≤ Bound.of p) Bound.of_lt_top
  exact ⟨path, before, leaf, after, by simp [descend, h, hpath], hat, hb, ha⟩

end BTree

/-- `r` is the newest version of `key` up to `visible` among the entries. -/
def IsNewest (es : List (LeafEntry V)) (key : Bytes) (visible : ℕ) : Option (LeafEntry V) → Prop
  | none => ∀ x ∈ es, x.key = key → visible < x.seq
  | some e => e ∈ es ∧ e.key = key ∧ e.seq ≤ visible ∧
      ∀ x ∈ es, x.key = key → x.seq ≤ visible → x.seq ≤ e.seq

/-- The entry comes before the newest visible version of `key`. -/
def Passed (key : Bytes) (visible : ℕ) (e : LeafEntry V) : Prop :=
  e.key < key ∨ e.key = key ∧ visible < e.seq

omit [ByteLen V] in
/-- A leaf is passed as a whole, or decides the search at its first entry that is not. -/
lemma searchLeaf_cases (key : Bytes) (visible : ℕ) (es : List (LeafEntry V)) :
    (searchLeaf key visible es = none ∧ ∀ x ∈ es, Passed key visible x) ∨
    ∃ l e r, es = l ++ e :: r ∧ (∀ x ∈ l, Passed key visible x) ∧
      ((searchLeaf key visible es = some none ∧ key < e.key) ∨
        (searchLeaf key visible es = some (some e) ∧ e.key = key ∧ e.seq ≤ visible)) := by
  induction es with
  | nil => exact Or.inl ⟨rfl, by simp⟩
  | cons e es ih =>
    have hskip (hpass : Passed key visible e)
        (heq : searchLeaf key visible (e :: es) = searchLeaf key visible es) :
        (searchLeaf key visible (e :: es) = none ∧ ∀ x ∈ e :: es, Passed key visible x) ∨
        ∃ l x r, e :: es = l ++ x :: r ∧ (∀ x ∈ l, Passed key visible x) ∧
          ((searchLeaf key visible (e :: es) = some none ∧ key < x.key) ∨
            (searchLeaf key visible (e :: es) = some (some x) ∧ x.key = key ∧ x.seq ≤ visible)) := by
      rw [heq]
      rcases ih with ⟨hnone, hall⟩ | ⟨l, x, r, rfl, hl, hdec⟩
      · exact Or.inl ⟨hnone, by simpa [hpass] using hall⟩
      · exact Or.inr ⟨e :: l, x, r, rfl, by simpa [hpass] using hl, hdec⟩
    by_cases hlt : e.key < key
    · exact hskip (Or.inl hlt) (by simp [searchLeaf, hlt])
    by_cases hgt : key < e.key
    · exact Or.inr ⟨[], e, es, rfl, by simp, Or.inl ⟨by simp [searchLeaf, hlt, hgt], hgt⟩⟩
    have heq : e.key = key := le_antisymm (not_lt.mp hgt) (not_lt.mp hlt)
    by_cases hseq : e.seq ≤ visible
    · exact Or.inr ⟨[], e, es, rfl, by simp,
        Or.inr ⟨by simp [searchLeaf, hlt, hgt, hseq], heq, hseq⟩⟩
    · exact hskip (Or.inr ⟨heq, not_le.mp hseq⟩) (by simp [searchLeaf, hlt, hgt, hseq])

omit [ByteLen V] in
/-- The first entry that is not passed decides which version is the newest visible one. -/
lemma isNewest_of_decided {es l r : List (LeafEntry V)} {e : LeafEntry V} {key : Bytes}
    {visible : ℕ} (hs : es.Pairwise fun a b => a.pos < b.pos) (hes : es = l ++ e :: r)
    (hl : ∀ x ∈ l, Passed key visible x) :
    (key < e.key → IsNewest es key visible none) ∧
      (e.key = key → e.seq ≤ visible → IsNewest es key visible (some e)) := by
  subst hes
  have hr := (List.pairwise_cons.mp (List.pairwise_append.mp hs).2.1).1
  have hpassed : ∀ x ∈ l, x.key = key → visible < x.seq := by
    intro x hx hk
    rcases hl x hx with h | ⟨-, h⟩
    · exact absurd hk h.ne
    · exact h
  constructor
  · intro hkey x hx hk
    rcases List.mem_append.mp hx with hx | hx
    · exact hpassed x hx hk
    · exfalso
      rcases List.mem_cons.mp hx with rfl | hx
      · exact hkey.ne hk.symm
      · rcases position_lt.mp (hr x hx) with h | ⟨h, -⟩
        · exact (hkey.trans h).ne hk.symm
        · exact hkey.ne (hk.symm.trans h.symm)
  · intro hkey hseq
    refine ⟨by simp, hkey, hseq, fun x hx hk hv => ?_⟩
    rcases List.mem_append.mp hx with hx | hx
    · exact absurd hv (not_le.mpr (hpassed x hx hk))
    · rcases List.mem_cons.mp hx with rfl | hx
      · exact le_rfl
      · rcases position_lt.mp (hr x hx) with h | ⟨-, h⟩
        · exact absurd (hkey.trans hk.symm) h.ne
        · exact h.le

namespace BTree

/-- The walk of `getVersion` has passed everything left of its leaf, with `k` leaves to go. -/
def GetInv (t : BTree V) (key : Bytes) (visible : ℕ) (k : ℕ) (path : List ℕ) : Prop :=
  ∃ before leaf after, At t.root path before leaf after ∧
    (∀ e ∈ before.flatten, Passed key visible e) ∧ after.length = k

/-- One pass decides the search, or moves on by one leaf. -/
lemma getStep_cases {key : Bytes} {visible k : ℕ} {path : List ℕ} (h : t.GetInv key visible k path) :
    (∃ b, t.getStep key visible path = .inr b ∧
        ∃ r, b = .ok r ∧ IsNewest t.entries key visible r) ∨
      ∃ k' path', k' < k ∧ t.getStep key visible path = .inl path' ∧
        t.GetInv key visible k' path' := by
  obtain ⟨before, leaf, after, hat, hb, rfl⟩ := h
  have hentries : t.entries = before.flatten ++ leaf ++ after.flatten := hat.entries_eq
  rcases searchLeaf_cases key visible leaf with ⟨hnone, hall⟩ | ⟨l, e, r, rfl, hl, hdec⟩
  · have hpassed : ∀ x ∈ before.flatten ++ leaf, Passed key visible x := by
      intro x hx
      rcases List.mem_append.mp hx with hx | hx
      · exact hb x hx
      · exact hall x hx
    have hlast : leaf.getLast?.any (fun e => key < e.key) = false := by
      rw [Option.any_eq_false]
      intro x hx
      rcases hall x (List.mem_of_getLast? hx) with h | ⟨h, -⟩
      · simpa using h.le
      · simp [h]
    cases after with
    | nil =>
      refine Or.inl ⟨.ok none, ?_, none, rfl, fun x hx hk => ?_⟩
      · simp [getStep, hat.leafAt_eq, hnone, hlast, hat.rightPath_eq_none t.ordered.full]
      · rcases hpassed x (by simpa [hentries] using hx) with h | ⟨-, h⟩
        · exact absurd hk h.ne
        · exact h
    | cons next after =>
      obtain ⟨path', hright, hat'⟩ := hat.rightPath_eq_some t.ordered.full
      refine Or.inr ⟨after.length, path', Nat.lt_succ_self _, ?_, _, next, after, hat', ?_, rfl⟩
      · simp [getStep, hat.leafAt_eq, hnone, hlast, hright]
      · simpa using hpassed
  · have hes : t.entries = (before.flatten ++ l) ++ e :: (r ++ after.flatten) := by
      simp [hentries]
    have hdecided := isNewest_of_decided t.sorted_entries hes (fun x hx => by
      rcases List.mem_append.mp hx with hx | hx
      · exact hb x hx
      · exact hl x hx)
    rcases hdec with ⟨hsearch, hkey⟩ | ⟨hsearch, hkey, hseq⟩
    · exact Or.inl ⟨.ok none, by simp [getStep, hat.leafAt_eq, hsearch], none, rfl, hdecided.1 hkey⟩
    · exact Or.inl ⟨.ok (some e), by simp [getStep, hat.leafAt_eq, hsearch], some e, rfl,
        hdecided.2 hkey hseq⟩

/-- The walk of `getVersion` over the leaves takes at most a million passes. -/
def getEnds (t : BTree V) (key : Bytes) (visible : ℕ) : Prop :=
  ∀ path, t.descend (position key u64Max) = .ok path →
    (loop (t.getStep key visible) 1000000 path).isSome

lemma getInv_descend (h : t.height < 64) (key : Bytes) (visible : ℕ) :
    ∃ path k, t.descend (position key u64Max) = .ok path ∧ t.GetInv key visible k path ∧
      k < (leaves t.root).length := by
  obtain ⟨path, before, leaf, after, hpath, hat, hb, -⟩ := descend_eq h (position key u64Max)
  refine ⟨path, after.length, hpath, ⟨before, leaf, after, hat, fun e he => ?_, rfl⟩, ?_⟩
  · have hmem : e ∈ PageTree.entries t.root := by
      rw [hat.entries_eq]
      simp [he]
    rcases position_lt.mp (hb e he) with hlt | ⟨-, hlt⟩
    · exact Or.inl hlt
    · exact absurd (t.packed.of_mem e hmem).2 (not_le.mpr hlt)
  · rw [hat.leaves_eq, List.length_append, List.length_cons]
    omega

/-- A tree with at most a million leaves never exhausts the guard. -/
theorem getEnds_of_leaves (h : t.height < 64) (hleaves : (leaves t.root).length ≤ 1000000)
    (key : Bytes) (visible : ℕ) : t.getEnds key visible := by
  intro path hpath
  obtain ⟨path', k, hpath', hinv, hk⟩ := getInv_descend h key visible
  obtain rfl : path = path' := by rwa [hpath, Except.ok.injEq] at hpath'
  exact (loop_spec (fun _ _ => getStep_cases) hinv _).2 (by omega)

/-- `getVersion` returns the newest visible version exactly when its walk ends. -/
theorem getVersion_iff (h : t.height < 64) (key : Bytes) (visible : ℕ) :
    (∃ r, t.getVersion key visible = .ok r ∧ IsNewest t.entries key visible r) ↔
      t.getEnds key visible := by
  obtain ⟨path, k, hpath, hinv, -⟩ := getInv_descend h key visible
  rw [getVersion, hpath]
  simp only [getEnds, hpath, Except.ok.injEq, forall_eq']
  constructor
  · rintro ⟨r, hr, -⟩
    by_contra hsome
    rw [Option.not_isSome_iff_eq_none] at hsome
    simp [hsome] at hr
  · intro hsome
    obtain ⟨b, hb⟩ := Option.isSome_iff_exists.mp hsome
    obtain ⟨r, rfl, hr⟩ := (loop_spec (fun _ _ => getStep_cases) hinv _).1 b hb
    exact ⟨r, by simp [hb], hr⟩

end BTree

end CarolinaDB.Storage
