import Mathlib

/-!
# Byte strings

Byte strings are compared byte by byte, a proper initial part first. Appending
a zero byte gives the next string in that order.
-/
namespace CarolinaDB

instance linearOrderUInt8 : LinearOrder UInt8 where
  le_refl := UInt8.le_refl
  le_trans _ _ _ := UInt8.le_trans
  le_antisymm _ _ := UInt8.le_antisymm
  le_total := UInt8.le_total
  lt_iff_le_not_ge a b := by
    rw [UInt8.not_le]
    exact ⟨fun h => ⟨UInt8.le_of_lt h, h⟩, fun h => h.2⟩
  toDecidableLE := inferInstance
  toDecidableEq := inferInstance
  toDecidableLT := inferInstance

abbrev Bytes := List UInt8

instance lawfulBEqBytes : LawfulBEq Bytes := inferInstance

/-- A byte array of fixed length. -/
abbrev Octets (n : ℕ) := {b : Bytes // b.length = n}

def Octets.zero (n : ℕ) : Octets n := ⟨List.replicate n 0, List.length_replicate⟩

namespace Bytes

lemma lt_push_zero (k : Bytes) : k < k ++ [0] := by
  induction k with
  | nil => exact List.Lex.nil
  | cons b k ih => exact List.Lex.cons ih

/-- Nothing lies between a byte string and the one with a zero byte appended. -/
lemma le_of_lt_push_zero {k k' : Bytes} (h : k' < k ++ [0]) : k' ≤ k := by
  rw [← not_lt]
  induction k generalizing k' with
  | nil =>
    cases k' with
    | nil => exact lt_irrefl _
    | cons b k' =>
      rw [List.nil_append, List.cons_lt_cons_iff] at h
      rcases h with h | ⟨-, h⟩
      · exact absurd h (not_lt.mpr UInt8.zero_le)
      · exact absurd h (List.not_lt_nil k')
  | cons b k ih =>
    cases k' with
    | nil => exact List.not_lt_nil (b :: k)
    | cons c k' =>
      rw [List.cons_append, List.cons_lt_cons_iff] at h
      rw [List.cons_lt_cons_iff]
      rintro (hbc | ⟨rfl, hk⟩)
      · rcases h with h | ⟨rfl, -⟩
        · exact lt_asymm h hbc
        · exact lt_irrefl _ hbc
      · rcases h with h | ⟨-, h⟩
        · exact lt_irrefl _ h
        · exact ih h hk

end Bytes

end CarolinaDB
