import CarolinaDB.FiniteMap

/-!
# Position maps

A map that tells the place of every element of a list without duplicates, and how it follows
the list when an element is appended or replaced.
-/
namespace CarolinaDB

variable {K : Type} [LinearOrder K] {m : FiniteMap K ℕ} {l : List K} {a b : K} {i : ℕ}

/-- The map holds every element of the list at its place, and nothing else. -/
def Positions (m : FiniteMap K ℕ) (l : List K) : Prop :=
  ∀ (a : K) (i : ℕ), m[a]? = some i ↔ l[i]? = some a

/-- Number the elements of a list from `i` on. -/
def numberFrom : ℕ → List K → FiniteMap K ℕ → FiniteMap K ℕ
  | _, [], m => m
  | i, a :: l, m => numberFrom (i + 1) l (m.insert a i)

namespace Positions

lemma empty : Positions (∅ : FiniteMap K ℕ) [] := by
  intro a i
  simp

lemma not_mem_iff (h : Positions m l) : m[a]? = none ↔ a ∉ l := by
  rw [Option.eq_none_iff_forall_ne_some]
  simp only [ne_eq, h a, List.mem_iff_getElem?, not_exists]

/-- No element has two places. -/
lemma inj (h : Positions m l) {j : ℕ} (hi : l[i]? = some a) (hj : l[j]? = some a) : i = j := by
  rw [← h] at hi hj
  rw [hi] at hj
  exact Option.some.inj hj

lemma nodup (h : Positions m l) : l.Nodup := by
  rw [List.nodup_iff_getElem?_ne_getElem?]
  intro i j hij hj heq
  have hsome : l[j]? = some l[j] := List.getElem?_eq_getElem hj
  exact hij.ne (h.inj (heq.trans hsome) hsome)

lemma push (h : Positions m l) (ha : a ∉ l) : Positions (m.insert a l.length) (l ++ [a]) := by
  intro b i
  rw [FiniteMap.get_insert]
  by_cases hab : a = b
  · subst hab
    rw [if_pos rfl, Option.some.injEq]
    constructor
    · rintro rfl
      simp
    · intro hi
      rcases lt_trichotomy i l.length with hlt | heq | hgt
      · rw [List.getElem?_append_left hlt] at hi
        exact absurd (List.mem_of_getElem? hi) ha
      · exact heq.symm
      · rw [List.getElem?_eq_none (by simp; omega)] at hi
        cases hi
  · rw [if_neg hab, h]
    rcases lt_trichotomy i l.length with hlt | rfl | hgt
    · rw [List.getElem?_append_left hlt]
    · simp [hab]
    · rw [List.getElem?_eq_none hgt.le, List.getElem?_eq_none (by simp; omega)]

/-- An element gives its place to one that is not in the list, or to itself. -/
lemma set (h : Positions m l) (hi : l[i]? = some a) (hb : b = a ∨ b ∉ l) :
    Positions ((m.erase a).insert b i) (l.set i b) := by
  intro c j
  have hlt : i < l.length := (List.getElem?_eq_some_iff.mp hi).1
  rw [FiniteMap.get_insert, FiniteMap.get_erase, List.getElem?_set]
  by_cases hij : i = j
  · subst hij
    by_cases hbc : b = c
    · simp [hbc, hlt]
    · have hne : m[c]? ≠ some i ∨ a = c := by
        by_cases hac : a = c
        · exact Or.inr hac
        · rw [Ne, h, hi, Option.some.injEq]
          exact Or.inl hac
      rcases hne with hne | rfl
      · simp [hbc, hne, hlt]
      · simp [hbc, hlt]
  · rw [if_neg hij]
    by_cases hbc : b = c
    · subst hbc
      have hnot : l[j]? ≠ some b := by
        intro hj
        rcases hb with rfl | hb
        · exact hij (h.inj hi hj)
        · exact hb (List.mem_of_getElem? hj)
      simp [hij, hnot]
    · rw [if_neg hbc]
      by_cases hac : a = c
      · subst hac
        rw [if_pos rfl]
        simp only [reduceCtorEq, false_iff]
        intro hj
        exact hij (h.inj hi hj)
      · rw [if_neg hac, h]

end Positions

lemma positions_numberFrom (hl : l.Nodup) : Positions (numberFrom 0 l ∅) l := by
  -- the elements numbered so far stand before the others
  have hgen : ∀ (before after : List K) (m : FiniteMap K ℕ), (before ++ after).Nodup →
      Positions m before → Positions (numberFrom before.length after m) (before ++ after) := by
    intro before after
    induction after generalizing before with
    | nil =>
      intro m _ h
      rw [List.append_nil]
      exact h
    | cons a after ih =>
      intro m hnodup h
      rw [List.append_cons] at hnodup ⊢
      have ha : a ∉ before := fun hmem =>
        (List.nodup_append.mp (List.nodup_append.mp hnodup).1).2.2 a hmem a (by simp) rfl
      have := ih (before ++ [a]) (m.insert a before.length) hnodup (h.push ha)
      rwa [List.length_append] at this
  exact hgen [] l ∅ hl Positions.empty

end CarolinaDB
