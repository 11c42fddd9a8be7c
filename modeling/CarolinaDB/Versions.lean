import Mathlib

/-!
# Versioned maps

A versioned map holds at most one value for a key at a sequence number. A read at
a point sees the value with the greatest sequence number not above it.
-/
namespace CarolinaDB

def Versions (K α : Type) := K → ℕ → Option α

namespace Versions
variable {K α : Type}

def empty : Versions K α := fun _ _ => none

/-- The value a read of `k` at `v` sees. -/
def newest (m : Versions K α) (k : K) : ℕ → Option α
  | 0 => m k 0
  | v+1 => (m k (v+1)).or (m.newest k v)

/-- Add a version, unless there is one in its place. -/
def insert [DecidableEq K] (m : Versions K α) (k : K) (s : ℕ) (a : α) : Versions K α :=
  fun k' s' => if k' = k ∧ s' = s then (m k s).or (some a) else m k' s'

lemma newest_eq_none_iff {m : Versions K α} {k : K} {v : ℕ} :
    m.newest k v = none ↔ ∀ s ≤ v, m k s = none := by
  induction v with
  | zero => simp [newest]
  | succ v ih =>
    rw [newest, Option.or_eq_none_iff, ih]
    constructor
    · rintro ⟨h, h'⟩ s hs
      rcases Nat.le_succ_iff.mp hs with hs | rfl
      · exact h' s hs
      · exact h
    · intro h
      exact ⟨h _ le_rfl, fun s hs => h s (by omega)⟩

lemma newest_eq_some_iff {m : Versions K α} {k : K} {v : ℕ} {a : α} :
    m.newest k v = some a ↔
      ∃ s ≤ v, m k s = some a ∧ ∀ s', s < s' → s' ≤ v → m k s' = none := by
  induction v with
  | zero =>
    rw [newest]
    constructor
    · intro h
      exact ⟨0, le_rfl, h, fun s' hs hs' => by omega⟩
    · rintro ⟨s, hs, h, -⟩
      obtain rfl : s = 0 := by omega
      exact h
  | succ v ih =>
    rw [newest, Option.or_eq_some_iff, ih]
    constructor
    · rintro (h | ⟨hnone, s, hs, h, hlast⟩)
      · exact ⟨v+1, le_rfl, h, fun s' hs hs' => by omega⟩
      · refine ⟨s, by omega, h, fun s' hlt hle => ?_⟩
        rcases Nat.le_succ_iff.mp hle with hle | rfl
        · exact hlast s' hlt hle
        · exact hnone
    · rintro ⟨s, hs, h, hlast⟩
      rcases Nat.le_succ_iff.mp hs with hs' | rfl
      · exact Or.inr ⟨hlast _ (by omega) le_rfl, s, hs', h, fun s' hlt hle => hlast s' hlt (by omega)⟩
      · exact Or.inl h

lemma newest_congr {m m' : Versions K α} {k : K} {v : ℕ} (h : ∀ s ≤ v, m' k s = m k s) :
    m'.newest k v = m.newest k v := by
  induction v with
  | zero => exact h 0 le_rfl
  | succ v ih => rw [newest, newest, h _ le_rfl, ih fun s hs => h s (by omega)]

section Insert
variable [DecidableEq K] {m : Versions K α} {k k' : K} {s v : ℕ} {a : α}

/-- An earlier read does not see a new version. -/
lemma newest_insert_of_lt (h : v < s) : (m.insert k' s a).newest k v = m.newest k v := by
  refine newest_congr fun s' hs' => ?_
  rw [insert, if_neg fun hk => by omega]

lemma newest_insert_of_ne (h : k ≠ k') : (m.insert k' s a).newest k v = m.newest k v := by
  refine newest_congr fun s' _ => ?_
  rw [insert, if_neg fun hk => h hk.1]

/-- A version that is not newer than what a read sees does not change it. -/
lemma newest_insert_of_le {s' : ℕ} {b : α} (hle : s ≤ s') (hs' : s' ≤ v) (hb : m k' s' = some b) :
    (m.insert k' s a).newest k v = m.newest k v := by
  by_cases hk : k = k'
  swap
  · exact newest_insert_of_ne hk
  subst hk
  cases hm : m.newest k v with
  | none =>
    rw [newest_eq_none_iff] at hm
    rw [hm s' hs'] at hb
    cases hb
  | some c =>
    obtain ⟨t, ht, hc, hlast⟩ := newest_eq_some_iff.mp hm
    have hst : s ≤ t := by
      by_contra hlt
      rw [hlast s' (by omega) hs'] at hb
      cases hb
    refine newest_eq_some_iff.mpr ⟨t, ht, ?_, fun u hu hv => ?_⟩
    · rw [insert]
      split_ifs with heq
      · rw [← heq.2, hc, Option.some_or]
      · exact hc
    · rw [insert, if_neg fun heq => by omega]
      exact hlast u hu hv

end Insert

/-- The maps look the same to every read from `h` on. -/
def AgreeFrom (h : ℕ) (m m' : Versions K α) : Prop := ∀ k v, h ≤ v → m'.newest k v = m.newest k v

lemma AgreeFrom.refl (h : ℕ) (m : Versions K α) : AgreeFrom h m m := fun _ _ _ => rfl

lemma AgreeFrom.trans {h : ℕ} {m₁ m₂ m₃ : Versions K α} (h₁ : AgreeFrom h m₁ m₂)
    (h₂ : AgreeFrom h m₂ m₃) : AgreeFrom h m₁ m₃ :=
  fun k v hv => (h₂ k v hv).trans (h₁ k v hv)

/-- Versions may go if a newer version of their key, not above `h`, stays. -/
lemma agreeFrom_of_dropped {h : ℕ} {m m' : Versions K α}
    (hsub : ∀ k s a, m' k s = some a → m k s = some a)
    (hdrop : ∀ k s a, m k s = some a → m' k s = some a ∨
      ∃ s' a', s < s' ∧ s' ≤ h ∧ m' k s' = some a') : AgreeFrom h m m' := by
  intro k v hv
  have hnone (s : ℕ) (hs : m k s = none) : m' k s = none := by
    rw [Option.eq_none_iff_forall_not_mem] at hs ⊢
    exact fun a ha => hs a (hsub k s a ha)
  cases hm : m.newest k v with
  | none =>
    rw [newest_eq_none_iff] at hm ⊢
    exact fun s hs => hnone s (hm s hs)
  | some a =>
    obtain ⟨s, hs, ha, hlast⟩ := newest_eq_some_iff.mp hm
    rcases hdrop k s a ha with ha' | ⟨s', a', hlt, hle, ha'⟩
    · exact newest_eq_some_iff.mpr ⟨s, hs, ha', fun s' hlt hle => hnone s' (hlast s' hlt hle)⟩
    · have hgone := hlast s' hlt (hle.trans hv)
      rw [hsub k s' a' ha'] at hgone
      cases hgone

end Versions

end CarolinaDB
