import CarolinaDB.BTreeProgress

/-!
# What an insert fails with

An insert within the caps on keys and values fails only where a page cannot be split,
unless it is the first of the tree and its entry is longer than a page.
-/
namespace CarolinaDB.Storage

open PageTree

variable {V : Type} [ByteLen V] {n : ℕ} {e : LeafEntry V} {lo hi : Bound Pos}

/-- The errors of a page that cannot be split so that both halves fit. -/
def splitLimits : List CoreError := [
  corrupt "left half does not fit after split",
  .new .valueTooLarge "entry does not fit in an empty page",
  corrupt "internal left half does not fit",
  corrupt "internal right half does not fit"]

lemma splitPoint_lt (lens : List ℕ) (h : 2 ≤ lens.length) : splitPoint lens < lens.length := by
  rw [splitPoint]
  split <;> omega

/-- A leaf of more than one record has a record to split at. -/
lemma rewriteOrSplit_error {records : List (LeafEntry V)} {err : CoreError}
    (hlen : 2 ≤ records.length) (h : rewriteOrSplit records = .error err) : err ∈ splitLimits := by
  have hpoint : splitPoint (records.map LeafEntry.encodedLen) < records.length := by
    simpa using splitPoint_lt (records.map LeafEntry.encodedLen) (by simpa using hlen)
  rw [rewriteOrSplit] at h
  split_ifs at h
  dsimp only at h
  split at h
  · rename_i hnil
    rw [List.drop_eq_nil_iff] at hnil
    omega
  · split_ifs at h <;> simp [splitLimits, ← Except.error.inj h]

omit [ByteLen V] in
lemma insertSeparator_error {cs : List (Pos × TreePage V n)} {i : ℕ} {sep : Pos}
    {right : TreePage V n} {err : CoreError} (hne : cs ≠ [])
    (h : insertSeparator cs i sep right = .error err) : err ∈ splitLimits := by
  have hlen : 0 < (cs.insertIdx (i + 1) (sep, right)).length := by
    have := List.length_pos_iff.mpr hne
    rw [List.length_insertIdx]
    split_ifs <;> omega
  rw [insertSeparator] at h
  dsimp only at h
  by_cases hfit : fitPage ((cs.insertIdx (i + 1) (sep, right)).map fun c => separatorLen c.1)
  · rw [if_pos hfit] at h
    cases h
  rw [if_neg hfit] at h
  split at h
  · rename_i hnil
    rw [List.drop_eq_nil_iff] at hnil
    omega
  · split_ifs at h <;> simp [splitLimits, ← Except.error.inj h]

/-- An insert in a page fails only at a split, if its entry has room in an empty leaf. -/
lemma insertInto_error {p : TreePage V n} {err : CoreError} {onEntry : LeafEntry V → Prop}
    {onSep : Pos → Prop} (h : InOrder lo hi p) (hp : Packed onEntry onSep p)
    (hlo : lo ≤ Bound.of e.pos) (hhi : Bound.of e.pos < hi)
    (hfirst : entries p = [] → fitPage [e.encodedLen]) (hrun : insertInto e p = .error err) :
    err ∈ splitLimits := by
  induction n generalizing lo hi with
  | zero =>
    rw [insertInto] at hrun
    split at hrun
    · cases hrun
    · rename_i records hplace
      obtain ⟨l, r, hes, rfl⟩ := (placeIn_eq_some h.2.1 hplace).1
      by_cases hnil : l ++ r = []
      · have hfit := hfirst ((entries_leaf p).trans (hes.trans hnil))
        obtain ⟨rfl, rfl⟩ := List.append_eq_nil_iff.mp hnil
        rw [rewriteOrSplit, if_pos (by simpa using hfit)] at hrun
        cases hrun
      · refine rewriteOrSplit_error ?_ hrun
        have := List.length_pos_iff.mpr hnil
        simp only [List.length_append, List.length_cons] at this ⊢
        omega
  | succ n ih =>
    obtain ⟨l, c, r, a, b, rfl, hidx, ha, hb, hc, -, -, -⟩ := h.2.route hlo hhi
    obtain ⟨-, -, hcs⟩ := hp
    obtain ⟨-, hne, hcp⟩ := hcs c (by simp)
    have hget : (l ++ c :: r)[l.length]? = some c := by simp
    rw [insertInto, ← hidx, hget] at hrun
    dsimp only at hrun
    rcases hout : insertInto e c.2 with err' | out
    · simp only [hout] at hrun
      obtain rfl := Except.error.inj hrun
      exact ih hc hcp ha hb (fun hnil => absurd hnil hne) hout
    · rw [hout] at hrun
      cases out with
      | kept => cases hrun
      | written q => cases hrun
      | split left sep right => exact insertSeparator_error (by simp) hrun

/-- Every entry of a tree fits a page. -/
lemma fitPage_of_mem {p : TreePage V n} {onEntry : LeafEntry V → Prop} {onSep : Pos → Prop}
    (hp : Packed onEntry onSep p) (he : e ∈ entries p) : fitPage [e.encodedLen] := by
  induction n with
  | zero =>
    rw [entries_leaf] at he
    obtain ⟨l, r, rfl⟩ := List.append_of_mem he
    have hfit := fitPage_iff.mp hp.1
    rw [fitPage_iff]
    simp only [List.map_append, List.map_cons, slotBytes_append, slotBytes_cons, slotBytes_nil]
      at hfit ⊢
    omega
  | succ n ih =>
    rw [entries_node, List.mem_flatMap] at he
    obtain ⟨c, hc, he⟩ := he
    exact ih (hp.2.2 c hc).2.2 he

/-- What a page must leave room for: a key and a value within the caps, and, in a tree that is still
empty, the whole entry. -/
structure InsertCall.Storable (c : InsertCall V) (t : BTree V) : Prop where
  key : c.key.length ≤ maxKeyLen
  value : byteLen c.value ≤ maxValueLen
  first : t.entries = [] → fitPage [c.entry.encodedLen]

namespace BTree
variable {t t' : BTree V}

lemma install_error {he : EntryBound e} {err : CoreError}
    (hfirst : t.entries = [] → fitPage [e.encodedLen]) (h : t.install e he = .error err) :
    err ∈ splitLimits := by
  unfold install at h
  split at h
  · rename_i err' hins
    exact Except.error.inj h ▸ insertInto_error t.ordered t.packed bot_le Bound.of_lt_top hfirst hins
  all_goals cases h

end BTree

namespace InsertCall
variable {t t' : BTree V} {c : InsertCall V}

lemma run_of_key_lt (h : maxKeyLen < c.key.length) :
    c.run t = .error (.new .keyTooLarge "key exceeds MAX_KEY_LEN") := by
  rw [run, BTree.insertVersion, dif_pos h]

/-- An insert that is within the caps fails only at a page split. -/
lemma Storable.run_error {err : CoreError} (h : c.Storable t) (hheight : t.height < 64)
    (hrun : c.run t = .error err) : err ∈ splitLimits := by
  obtain ⟨path, -, -, -, hpath, -⟩ := BTree.descend_eq hheight (position c.key c.seq.toNat)
  rw [run, BTree.insertVersion, dif_neg (not_lt.mpr h.key), if_neg (not_lt.mpr h.value),
    BTree.findVersion_eq hheight, hpath] at hrun
  split at hrun
  · rename_i herr
    split_ifs at herr
  · cases hrun
  · exact BTree.install_error h.first hrun

/-- An insert that succeeds was within the caps, and leaves an entry. -/
lemma storable_of_run {b : Bool} (h : c.run t = .ok (b, t')) : c.Storable t ∧ t'.entries ≠ [] := by
  obtain ⟨-, hkey, hvalue, hcases⟩ := BTree.insertVersion_cases h
  rcases hcases with ⟨-, rfl, hsome⟩ | ⟨-, hgrown⟩
  · obtain ⟨x, hx⟩ := Option.isSome_iff_exists.mp hsome
    have hne := List.ne_nil_of_mem (BTree.versions_eq_some_iff.mp hx).1
    exact ⟨⟨hkey, hvalue, fun hnil => absurd hnil hne⟩, hne⟩
  · have hne : t'.entries ≠ [] := by
      obtain ⟨l, r, -, heq⟩ := hgrown
      simp [heq]
    exact ⟨⟨hkey, hvalue, fun _ => fitPage_of_mem t'.packed (hgrown.mem_iff.mpr (Or.inl rfl))⟩, hne⟩

end InsertCall

end CarolinaDB.Storage
