import CarolinaDB.BTreeRefinement

/-!
# Reads of the current versions end

A walk over the leaves goes on only past versions that are newer than what is
visible, so reads of a key with few newer versions end within the guard.
-/
namespace CarolinaDB.Storage

open PageTree Loop

variable {V : Type} [ByteLen V] {t : BTree V}

namespace BTree

section Newer
variable {key : Bytes} {visible : ℕ}

/-- How many entries of a key are newer than what is visible. -/
def newer (key : Bytes) (visible : ℕ) (es : List (LeafEntry V)) : ℕ :=
  es.countP fun e => e.key = key ∧ visible < e.seq

/-- The walk of `getVersion` moves on at most once for every newer entry that is still ahead, and
once more if its leaf decides nothing. -/
def GetBound (t : BTree V) (key : Bytes) (visible : ℕ) (k : ℕ) (path : List ℕ) : Prop :=
  ∃ before leaf after, At t.root path before leaf after ∧
    (∀ e ∈ after.flatten, position key u64Max < e.pos) ∧
    k = newer key visible after.flatten + if (searchLeaf key visible leaf).isSome then 0 else 1

omit [ByteLen V] in
/-- A leaf behind the start of the walk decides the search, unless its entries are all newer. -/
lemma newer_pos_of_undecided {next : List (LeafEntry V)} (hne : next ≠ [])
    (hafter : ∀ e ∈ next, position key u64Max < e.pos)
    (hnone : searchLeaf key visible next = none) : 0 < newer key visible next := by
  obtain ⟨e, he⟩ := List.exists_mem_of_ne_nil _ hne
  rw [newer, List.countP_pos_iff]
  refine ⟨e, he, ?_⟩
  rcases searchLeaf_cases key visible next with ⟨-, hall⟩ | ⟨l, x, r, -, -, hdec⟩
  · rcases hall e he with hlt | ⟨hkey, hseq⟩
    · rcases position_lt.mp (hafter e he) with h | ⟨h, -⟩
      · exact absurd (hlt.trans h) (lt_irrefl _)
      · exact absurd h.symm hlt.ne
    · simp [hkey, hseq]
  · rcases hdec with ⟨h, -⟩ | ⟨h, -⟩ <;> rw [hnone] at h <;> cases h

lemma getBound_step {k : ℕ} {path : List ℕ} (h : t.GetBound key visible k path) :
    (∃ b, t.getStep key visible path = .inr b ∧ True) ∨
      ∃ k' path', k' < k ∧ t.getStep key visible path = .inl path' ∧
        t.GetBound key visible k' path' := by
  obtain ⟨before, leaf, after, hat, hafter, rfl⟩ := h
  simp only [getStep, hat.leafAt_eq]
  cases hsearch : searchLeaf key visible leaf with
  | some found => exact Or.inl ⟨_, rfl, trivial⟩
  | none =>
    simp only [Option.isSome_none, Bool.false_eq_true, if_false]
    split_ifs with hlast
    · exact Or.inl ⟨_, rfl, trivial⟩
    cases after with
    | nil =>
      rw [hat.rightPath_eq_none t.ordered.full]
      exact Or.inl ⟨_, rfl, trivial⟩
    | cons next after =>
      obtain ⟨path', hright, hat'⟩ := hat.rightPath_eq_some t.ordered.full
      rw [hright]
      refine Or.inr ⟨_, path', ?_, rfl, _, next, after, hat',
        fun e he => hafter e (by simp [he]), rfl⟩
      have hcount : newer key visible (next :: after).flatten =
          newer key visible next + newer key visible after.flatten := by
        rw [newer, List.flatten_cons, List.countP_append]
        rfl
      rw [hcount]
      cases hnext : searchLeaf key visible next with
      | some found =>
        simp only [Option.isSome_some, if_true]
        omega
      | none =>
        have hpos := newer_pos_of_undecided (next_ne_nil hat)
          (fun e he => hafter e (by simp [he])) hnext
        simp only [Option.isSome_none, Bool.false_eq_true, if_false]
        omega

/-- The walk ends if the key has fewer than a million newer versions. -/
theorem getEnds_of_newer (h : t.height < 64)
    (hcount : newer key visible t.entries + 1 < 1000000) : t.getEnds key visible := by
  intro path hpath
  obtain ⟨path', before, leaf, after, hpath', hat, -, ha⟩ := descend_eq h (position key u64Max)
  obtain rfl : path = path' := by rwa [hpath, Except.ok.injEq] at hpath'
  have hbound : t.GetBound key visible _ path := ⟨before, leaf, after, hat, ha, rfl⟩
  refine (loop_spec (Q := fun _ => True) (fun _ _ => getBound_step) hbound _).2 ?_
  have hle : newer key visible after.flatten ≤ newer key visible t.entries := by
    have hentries : t.entries = before.flatten ++ leaf ++ after.flatten := hat.entries_eq
    rw [hentries, newer, newer, List.countP_append]
    exact Nat.le_add_left _ _
  split_ifs <;> omega

end Newer

end BTree

end CarolinaDB.Storage
