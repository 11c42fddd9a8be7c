import CarolinaDB.ElectionSteps
import CarolinaDB.RaftNode

/-!
# The full log behind a compacted one

A voter stores its log above the snapshot base only. `LogView` relates what it
stores to the full log it stands for; the lookups of the node, which know terms
only at or above the base, are then lookups in the full log.
-/
namespace CarolinaDB.Consensus

open ElectionHistory

instance : Stamped Entry := ⟨Entry.term⟩

/-- Term of the entry at a log index, zero where there is none. -/
def termOf (full : List Entry) (index : ℕ) : ℕ :=
  if index = 0 then 0 else (full[index-1]?.map Entry.term).getD 0

lemma termOf_succ (full : List Entry) (k : ℕ) :
    termOf full (k+1) = (full[k]?.map Entry.term).getD 0 := rfl

/-- Entries numbered from `b + 1` on. -/
lemma filter_lt_of_numbered {es : List Entry} {b : ℕ}
    (h : ∀ k e, es[k]? = some e → e.index = b + 1 + k) (n : ℕ) :
    es.filter (·.index < n) = es.take (n - b - 1) := by
  induction es generalizing b with
  | nil => simp
  | cons e es ih =>
    have he : e.index = b + 1 := h 0 e rfl
    have hrest : ∀ k x, es[k]? = some x → x.index = b + 1 + 1 + k := by
      intro k x hx
      have := h (k+1) x hx
      omega
    by_cases hlt : b + 1 < n
    · obtain ⟨m, hm⟩ : ∃ m, n - b - 1 = m + 1 := ⟨n - b - 2, by omega⟩
      rw [List.filter_cons_of_pos (by simpa [he] using hlt), ih hrest, hm, List.take_succ_cons]
      congr 2
      omega
    · rw [List.filter_cons_of_neg (by simpa [he] using hlt), ih hrest]
      have h₁ : n - (b+1) - 1 = 0 := by omega
      have h₂ : n - b - 1 = 0 := by omega
      simp [h₁, h₂]

lemma filter_gt_of_numbered {es : List Entry} {b : ℕ}
    (h : ∀ k e, es[k]? = some e → e.index = b + 1 + k) {n : ℕ} (hn : b ≤ n) :
    es.filter (n < ·.index) = es.drop (n - b) := by
  induction es generalizing b with
  | nil => simp
  | cons e es ih =>
    have he : e.index = b + 1 := h 0 e rfl
    have hrest : ∀ k x, es[k]? = some x → x.index = b + 1 + 1 + k := by
      intro k x hx
      have := h (k+1) x hx
      omega
    by_cases hlt : b < n
    · obtain ⟨m, hm⟩ : ∃ m, n - b = m + 1 := ⟨n - b - 1, by omega⟩
      have hneg : ¬ n < e.index := by omega
      rw [List.filter_cons_of_neg (by simpa using hneg), ih hrest (by omega), hm,
        List.drop_succ_cons]
      congr 1
      omega
    · have hnb : n - b = 0 := by omega
      rw [hnb, List.drop_zero, List.filter_eq_self]
      intro x hx
      obtain ⟨k, hk⟩ := List.mem_iff_getElem?.mp hx
      have := h k x hk
      simp only [decide_eq_true_eq]
      omega

/-- `full` is numbered from one, with terms from one on. -/
structure Numbered (full : List Entry) : Prop where
  index : ∀ k e, full[k]? = some e → e.index = k+1
  term_pos : ∀ e ∈ full, 0 < e.term

namespace Numbered

lemma nil : Numbered [] := ⟨by simp, by simp⟩

lemma of_extends {l m : List Entry} (hm : Numbered m) (hp : l <+: m) : Numbered l :=
  ⟨fun k e he => hm.index k e (prefix_getElem? hp he), fun e he => hm.term_pos e (hp.subset he)⟩

lemma push {l : List Entry} (hl : Numbered l) {e : Entry} (hi : e.index = l.length + 1)
    (ht : 0 < e.term) : Numbered (l ++ [e]) := by
  constructor
  · intro k d hd
    rcases Nat.lt_or_ge k l.length with hk | hk
    · rw [List.getElem?_append_left hk] at hd
      exact hl.index k d hd
    · have hk' : k = l.length := by
        have := length_of_getElem? hd
        simp at this
        omega
      subst hk'
      simp at hd
      exact hd ▸ hi
  · intro d hd
    rw [List.mem_append, List.mem_singleton] at hd
    rcases hd with hd | rfl
    · exact hl.term_pos d hd
    · exact ht

lemma termOf_pos {l : List Entry} (hl : Numbered l) {n : ℕ} (h0 : 0 < n) (hn : n ≤ l.length) :
    0 < termOf l n := by
  obtain ⟨k, rfl⟩ : ∃ k, n = k+1 := ⟨n-1, by omega⟩
  obtain ⟨e, he⟩ : ∃ e, l[k]? = some e := ⟨_, List.getElem?_eq_getElem (by omega)⟩
  rw [termOf_succ, he]
  exact hl.term_pos e (List.mem_of_getElem? he)

lemma index_drop {l : List Entry} (hl : Numbered l) (b k : ℕ) (e : Entry)
    (he : (l.drop b)[k]? = some e) : e.index = b + 1 + k := by
  rw [List.getElem?_drop] at he
  have := hl.index _ e he
  omega

/-- Below an index and above it are where the numbering says. -/
lemma filter_lt {l : List Entry} (hl : Numbered l) (b k : ℕ) :
    (l.drop b).filter (·.index < k+1) = (l.take k).drop b := by
  rw [filter_lt_of_numbered (hl.index_drop b), List.drop_take]
  congr 1
  omega

lemma filter_gt {l : List Entry} (hl : Numbered l) {b k : ℕ} (hbk : b ≤ k) :
    (l.drop b).filter (k < ·.index) = l.drop k := by
  rw [filter_gt_of_numbered (hl.index_drop b) hbk, List.drop_drop, Nat.add_sub_cancel' hbk]

end Numbered

/-- What a voter stores stands for the full log `full`. -/
structure LogView (full : List Entry) (base baseTerm : ℕ) (log : List Entry) : Prop where
  numbered : Numbered full
  base_le : base ≤ full.length
  baseTerm_eq : baseTerm = termOf full base
  log_eq : log = full.drop base

namespace LogView

variable {full log : List Entry} {base baseTerm : ℕ}

lemma initial : LogView [] 0 0 [] := ⟨Numbered.nil, le_rfl, rfl, rfl⟩

lemma log_length (v : LogView full base baseTerm log) : log.length = full.length - base := by
  rw [v.log_eq, List.length_drop]

lemma push (v : LogView full base baseTerm log) {e : Entry} (hi : e.index = full.length + 1)
    (ht : 0 < e.term) : LogView (full ++ [e]) base baseTerm (log ++ [e]) where
  numbered := v.numbered.push hi ht
  base_le := by
    have := v.base_le
    simp
    omega
  baseTerm_eq := by
    rw [v.baseTerm_eq, termOf, termOf]
    split
    · rfl
    · rw [List.getElem?_append_left]
      have := v.base_le
      omega
  log_eq := by rw [v.log_eq, List.drop_append_of_le_length v.base_le]

lemma truncate (v : LogView full base baseTerm log) {k : ℕ} (hb : base ≤ k)
    (hk : k ≤ full.length) : LogView (full.take k) base baseTerm (log.take (k - base)) where
  numbered := v.numbered.of_extends (List.take_prefix _ _)
  base_le := by rwa [List.length_take, Nat.min_eq_left hk]
  baseTerm_eq := by
    rw [v.baseTerm_eq, termOf, termOf]
    split
    · rfl
    · rw [List.getElem?_take_of_lt (by omega)]
  log_eq := by rw [v.log_eq, List.drop_take]

lemma filter_lt (v : LogView full base baseTerm log) {k : ℕ} :
    log.filter (·.index < k+1) = log.take (k - base) := by
  rw [v.log_eq, v.numbered.filter_lt, List.drop_take]

lemma compact (v : LogView full base baseTerm log) {k : ℕ} (hb : base ≤ k)
    (hk : k ≤ full.length) : LogView full k (termOf full k) (log.drop (k - base)) where
  numbered := v.numbered
  base_le := hk
  baseTerm_eq := rfl
  log_eq := by
    rw [v.log_eq, List.drop_drop]
    congr 1
    omega

lemma filter_gt (v : LogView full base baseTerm log) {k : ℕ} (hb : base ≤ k) :
    log.filter (k < ·.index) = log.drop (k - base) := by
  rw [v.log_eq, v.numbered.filter_gt hb, List.drop_drop]
  congr 1
  omega

end LogView

namespace Raft

variable {Id : Type} [LinearOrder Id] {r : Raft Id} {full : List Entry}

/-- The node stores what stands for `full`. -/
def Views (r : Raft Id) (full : List Entry) : Prop :=
  LogView full r.snapshotIndex r.snapshotTerm r.log

lemma Views.lastIndex (v : r.Views full) : r.lastIndex = full.length := by
  have hlen := v.log_length
  have hb := v.base_le
  cases hl : r.log.getLast? with
  | none =>
    rw [List.getLast?_eq_none_iff] at hl
    rw [hl] at hlen
    simp [Raft.lastIndex, hl] at hlen ⊢
    omega
  | some e =>
    have he := hl
    rw [List.getLast?_eq_getElem?] at he
    have hk := length_of_getElem? he
    rw [v.log_eq] at hk
    rw [v.log_eq, List.getElem?_drop] at he
    have := v.numbered.index _ e he
    simp only [Raft.lastIndex, hl, Option.map_some, Option.getD_some]
    rw [List.length_drop] at hk this
    omega

lemma Views.lastTerm (v : r.Views full) : r.lastTerm = (full.getLast?.map Entry.term).getD 0 := by
  have hlen := v.log_length
  have hb := v.base_le
  rw [Raft.lastTerm, v.log_eq, v.baseTerm_eq, List.getLast?_drop, List.getLast?_eq_getElem?]
  split
  · have he : r.snapshotIndex = full.length := by omega
    rw [he, termOf]
    split
    · simp_all
    · rfl
  · have hne : full ≠ [] := by
      rintro rfl
      simp_all
    simp [List.getElem?_eq_getElem (show full.length - 1 < full.length by
      have := List.length_pos_iff.mpr hne
      omega)]

lemma Views.entry (v : r.Views full) (n : ℕ) :
    r.entry n = if r.snapshotIndex < n then full[n-1]? else none := by
  have hb := v.base_le
  unfold Raft.entry logPos
  rw [v.lastIndex, v.log_eq]
  by_cases hn : r.snapshotIndex < n
  · have hcond : ¬ (n ≤ r.snapshotIndex) := by omega
    by_cases hlen : full.length < n
    · rw [if_pos (Or.inr hlen), if_pos hn, List.getElem?_eq_none (by omega)]
    · rw [if_neg (by omega), if_neg hcond, if_pos hn]
      simp only [Option.bind_some, List.getElem?_drop]
      congr 1
      omega
  · rw [if_neg hn]
    split
    · rfl
    · rw [if_pos (by omega)]
      rfl

lemma Views.entry_above (v : r.Views full) {k : ℕ} (hk : r.snapshotIndex ≤ k) :
    r.entry (k+1) = full[k]? := by
  rw [v.entry, if_pos (by omega)]
  rfl

lemma Views.termAt (v : r.Views full) (n : ℕ) :
    r.termAt n = if n < r.snapshotIndex then 0 else termOf full n := by
  rw [Raft.termAt, v.entry, v.baseTerm_eq]
  rcases Nat.lt_trichotomy n r.snapshotIndex with h | h | h
  · rw [if_neg (by omega), if_neg (by omega), if_pos h]
    rfl
  · rw [if_pos h, if_neg (by omega), h]
  · rw [if_neg (by omega), if_pos h, if_neg (by omega), termOf, if_neg (by omega)]

end Raft

end CarolinaDB.Consensus
