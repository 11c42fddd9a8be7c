import Mathlib

/-!
# Finite maps

Ordered maps with finitely many keys, equal when they hold the same values at the
same keys. They are the maps of the standard library at the order of the keys.
-/
namespace CarolinaDB

/-- Machine integers as keys. -/
instance linearOrderUInt64 : LinearOrder UInt64 where
  le_refl a := Nat.le_refl a.toNat
  le_trans _ _ _ hab hbc := Nat.le_trans hab hbc
  lt_iff_le_not_ge a b := by
    rw [UInt64.lt_iff_toNat_lt, UInt64.le_iff_toNat_le, UInt64.le_iff_toNat_le]
    omega
  le_antisymm _ _ hab hba := UInt64.toNat_inj.mp (Nat.le_antisymm hab hba)
  le_total a b := Nat.le_total a.toNat b.toNat
  toDecidableLE := inferInstance
  toDecidableEq := inferInstance
  toDecidableLT := inferInstance

variable {K V : Type} [LinearOrder K]

instance transCmp_compare : Std.TransCmp (compare : K → K → Ordering) where
  eq_swap {a b} := by
    rcases lt_trichotomy a b with h | h | h
    · rw [compare_lt_iff_lt.mpr h, compare_gt_iff_gt.mpr h]
      rfl
    · rw [compare_eq_iff_eq.mpr h, compare_eq_iff_eq.mpr h.symm]
      rfl
    · rw [compare_lt_iff_lt.mpr h, compare_gt_iff_gt.mpr h]
      rfl
  isLE_trans {a b c} hab hbc := by
    rw [Ordering.isLE_iff_ne_gt, compare_gt_iff_gt, not_lt] at hab hbc ⊢
    exact hab.trans hbc

instance lawfulEqCmp_compare : Std.LawfulEqCmp (compare : K → K → Ordering) where
  eq_of_compare h := compare_eq_iff_eq.mp h

abbrev FiniteMap (K V : Type) [LinearOrder K] := Std.ExtTreeMap K V compare

namespace FiniteMap

variable {m n : FiniteMap K V} {k a : K} {v : V}

lemma get_insert : (m.insert k v)[a]? = if k = a then some v else m[a]? := by
  rw [Std.ExtTreeMap.getElem?_insert]
  simp only [compare_eq_iff_eq]

@[simp] lemma get_insert_self : (m.insert k v)[k]? = some v := by
  rw [get_insert, if_pos rfl]

lemma get_insert_of_ne (h : k ≠ a) : (m.insert k v)[a]? = m[a]? := by
  rw [get_insert, if_neg h]

lemma get_erase : (m.erase k)[a]? = if k = a then none else m[a]? := by
  rw [Std.ExtTreeMap.getElem?_erase]
  simp only [compare_eq_iff_eq]

lemma get_erase_of_ne (h : k ≠ a) : (m.erase k)[a]? = m[a]? := by
  rw [get_erase, if_neg h]

lemma mem_toList : (k, v) ∈ m.toList ↔ m[k]? = some v :=
  Std.ExtTreeMap.mem_toList_iff_getElem?_eq_some

lemma mem_keys : k ∈ m.keys ↔ ∃ v, m[k]? = some v := by
  rw [Std.ExtTreeMap.mem_keys, Std.ExtTreeMap.mem_iff_isSome_getElem?, Option.isSome_iff_exists]

lemma values_eq (m : FiniteMap K V) : m.values = m.toList.map (·.2) := by
  obtain ⟨⟨q⟩⟩ := m
  induction q using Quotient.ind with
  | _ t =>
    change t.inner.values = (Std.DTreeMap.Internal.Impl.Const.toList t.inner).map (·.2)
    rw [Std.DTreeMap.Internal.Impl.values_eq_map_snd,
      Std.DTreeMap.Internal.Impl.Const.toList_eq_toListModel_map, List.map_map]
    rfl

lemma mem_values : v ∈ m.values ↔ ∃ k : K, m[k]? = some v := by
  rw [values_eq, List.mem_map]
  constructor
  · rintro ⟨⟨k, w⟩, hmem, rfl⟩
    exact ⟨k, mem_toList.mp hmem⟩
  · rintro ⟨k, hk⟩
    exact ⟨(k, v), mem_toList.mpr hk, rfl⟩

lemma length_values (m : FiniteMap K V) : m.values.length = m.size := by
  rw [values_eq, List.length_map, Std.ExtTreeMap.length_toList]

/-- What a map built value by value holds, when no two values have one key. -/
lemma get_foldl_insert {f : V → K} {l : List V} (hl : (l.map f).Nodup) :
    (l.foldl (fun m v => m.insert (f v) v) m)[k]? = some v ↔
      (v ∈ l ∧ f v = k) ∨ (k ∉ l.map f ∧ m[k]? = some v) := by
  induction l generalizing m with
  | nil => simp
  | cons w l ih =>
    rw [List.map_cons, List.nodup_cons] at hl
    rw [List.foldl_cons, ih hl.2, get_insert]
    by_cases hk : f w = k
    · subst hk
      by_cases hv : v = w
      · subst hv
        simp [hl.1]
      · simp [hl.1, hv, Ne.symm hv]
    · have hv : f v = k → v ≠ w := by
        rintro hv rfl
        exact hk hv
      simp only [hk, if_false, List.mem_cons, List.map_cons, Ne.symm hk, false_or]
      constructor
      · rintro (⟨hmem, hv'⟩ | h)
        · exact .inl ⟨.inr hmem, hv'⟩
        · exact .inr h
      · rintro (⟨hmem, hv'⟩ | h)
        · exact .inl ⟨hmem.resolve_left (hv hv'), hv'⟩
        · exact .inr h

/-- A map is built again from its values, when each names its key. -/
lemma foldl_insert_values {f : V → K} (h : ∀ k v, m[k]? = some v → f v = k) :
    m.values.foldl (fun m v => m.insert (f v) v) ∅ = m := by
  have hkeys : m.values.map f = m.toList.map (·.1) := by
    rw [values_eq, List.map_map]
    apply List.map_congr_left
    rintro ⟨k, v⟩ hmem
    exact h k v (mem_toList.mp hmem)
  have hnodup : (m.values.map f).Nodup := by
    rw [hkeys, List.Nodup, List.pairwise_map]
    exact Std.ExtTreeMap.distinct_keys_toList.imp fun hne he => hne (compare_eq_iff_eq.mpr he)
  apply Std.ExtTreeMap.ext_getElem?
  intro k
  apply Option.ext
  intro v
  rw [get_foldl_insert hnodup, mem_values]
  constructor
  · rintro (⟨⟨k', hk'⟩, rfl⟩ | ⟨-, hnone⟩)
    · rw [h k' v hk']
      exact hk'
    · simp at hnone
  · intro hk
    exact .inl ⟨⟨k, hk⟩, h k v hk⟩

end FiniteMap

end CarolinaDB
