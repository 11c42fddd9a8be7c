import CarolinaDB.CanonText
import CarolinaDB.FiniteMap
import CarolinaDB.Values

/-!
# Values are linearly ordered

Every value has a word of integers: its kind, then its contents, with a mark below
all kinds at the end of a list. Words of two values separate as the values
compare, so the order of values is the lexicographic order of their words, and
values can be keys of finite maps.
-/
namespace CarolinaDB

open Lexicographic

section Lists
variable {α : Type} [LinearOrder α]

lemma lexCmp_lt_iff {x y : List α} : lexCmp compare x y = .lt ↔ x < y := by
  induction x generalizing y with
  | nil => cases y <;> simp [lexCmp]
  | cons a x ih =>
    cases y with
    | nil => simp [lexCmp]
    | cons b y =>
      rw [lexCmp, Ordering.then_eq_lt, compare_lt_iff_lt, compare_eq_iff_eq, ih, List.cons_lt_cons_iff]

end Lists

namespace Lang

namespace Value

/-- The bytes of a string and a mark that comes before every byte. -/
def wordBytes (b : Bytes) : List ℤ := b.map (fun c => (c.toNat : ℤ)) ++ [-1]

mutual

def word : Value → List ℤ
  | unit => [0]
  | bool b => [1, b.toNat]
  | i64 v => [2, v.toInt]
  | u64 v => [3, v.toNat]
  | uuid u => 4 :: wordBytes u.val
  | bytes b => 5 :: wordBytes b
  | str s => 6 :: wordBytes (utf8 s)
  | decimal d => [7, d.scale.toNat, d.precision.toNat, d.coefficient]
  | enum e v => [8, e.toNat, v.toNat]
  | none => [9]
  | some v => 10 :: word v
  | set items => 11 :: wordItems items
  | tuple items => 12 :: wordItems items
  | row r fields => 13 :: (r.toNat : ℤ) :: wordFields fields
  | struct fields => 14 :: wordFields fields

def wordItems : List Value → List ℤ
  | [] => [-1]
  | v :: vs => word v ++ wordItems vs

def wordFields : List (String × Value) → List ℤ
  | [] => [-1]
  | (n, v) :: fs => 0 :: (wordBytes (utf8 n) ++ (word v ++ wordFields fs))

end

/-- Words begin with the kind. -/
lemma word_eq_cons (a : Value) : ∃ w, word a = (a.rank : ℤ) :: w := by
  cases a <;> exact ⟨_, rfl⟩

lemma separates_int (a b : ℤ) (x y : List ℤ) (h : a ≠ b) :
    Separates (compare a b) (a :: x) (b :: y) := by
  have := (Separates.singleton a b).append_right (by rwa [Ne, compare_eq_iff_eq]) x y
  simpa using this

lemma compare_cast (m n : ℕ) : compare (m : ℤ) (n : ℤ) = compare m n := by
  rcases lt_trichotomy m n with h | h | h
  · rw [compare_lt_iff_lt.mpr h, compare_lt_iff_lt.mpr (by omega)]
  · rw [compare_eq_iff_eq.mpr h, compare_eq_iff_eq.mpr (by omega)]
  · rw [compare_gt_iff_gt.mpr h, compare_gt_iff_gt.mpr (by omega)]

lemma compare_byte (c d : UInt8) : compare c d = compare (c.toNat : ℤ) (d.toNat : ℤ) := by
  rw [compare_cast]
  rcases lt_trichotomy c.toNat d.toNat with h | h | h
  · exact (compare_lt_iff_lt.mpr (UInt8.lt_iff_toNat_lt.mpr h)).trans (compare_lt_iff_lt.mpr h).symm
  · rw [compare_eq_iff_eq.mpr h, compare_eq_iff_eq.mpr (UInt8.toNat_inj.mp h)]
  · exact (compare_gt_iff_gt.mpr (UInt8.lt_iff_toNat_lt.mpr h)).trans (compare_gt_iff_gt.mpr h).symm

lemma separates_nat (m n : ℕ) : Separates (compare m n) [(m : ℤ)] [(n : ℤ)] := by
  rw [← compare_cast]
  exact Separates.singleton _ _

lemma separates_wordBytes (a b : Bytes) :
    Separates (lexCmp compare a b) (wordBytes a) (wordBytes b) := by
  induction a generalizing b with
  | nil =>
    cases b with
    | nil => exact Separates.refl _
    | cons d b =>
      have h := separates_int (-1) d.toNat [] (wordBytes b) (by omega)
      rwa [compare_lt_iff_lt.mpr (by omega)] at h
  | cons c a ih =>
    cases b with
    | nil =>
      have h := separates_int c.toNat (-1) (wordBytes a) [] (by omega)
      rwa [compare_gt_iff_gt.mpr (by omega)] at h
    | cons d b =>
      rw [lexCmp, compare_byte]
      exact (Separates.singleton _ _).append (ih b)

lemma separates_compareStr (s t : String) :
    Separates (compareStr s t) (wordBytes (utf8 s)) (wordBytes (utf8 t)) :=
  separates_wordBytes _ _

/-- Values of different kinds are ordered by kind. -/
lemma cmp_of_rank_ne {a b : Value} (h : a.rank ≠ b.rank) : cmp a b = compare a.rank b.rank := by
  cases a <;> cases b <;> first | rfl | exact absurd rfl h

lemma separates_of_rank_ne {a b : Value} (h : a.rank ≠ b.rank) :
    Separates (cmp a b) (word a) (word b) ∧ (cmp a b = .eq → a = b) := by
  obtain ⟨x, hx⟩ := word_eq_cons a
  obtain ⟨y, hy⟩ := word_eq_cons b
  rw [cmp_of_rank_ne h, hx, hy]
  refine ⟨?_, fun he => absurd (compare_eq_iff_eq.mp he) h⟩
  rw [← compare_cast]
  exact separates_int _ _ _ _ (by exact_mod_cast h)

mutual

/-- Words separate as the values compare, and values that compare equal are identical. -/
theorem separates_cmp (a b : Value) :
    Separates (cmp a b) (word a) (word b) ∧ (cmp a b = .eq → a = b) := by
  by_cases h : a.rank = b.rank
  swap
  · exact separates_of_rank_ne h
  cases a with
  | bool x =>
    cases b <;> first | (simp [rank] at h; done) | skip
    rename_i y
    have hc : compare x y = compare x.toNat y.toNat := by cases x <;> cases y <;> rfl
    refine ⟨?_, fun he => ?_⟩
    · rw [cmp, hc]
      exact (separates_nat x.toNat y.toNat).cons 1
    · rw [cmp, compare_eq_iff_eq] at he
      rw [he]
  | i64 x =>
    cases b <;> first | (simp [rank] at h; done) | skip
    rename_i y
    refine ⟨(Separates.singleton x.toInt y.toInt).cons 2, fun he => ?_⟩
    rw [cmp, compare_eq_iff_eq, Int64.toInt_inj] at he
    rw [he]
  | u64 x =>
    cases b <;> first | (simp [rank] at h; done) | skip
    rename_i y
    refine ⟨(separates_nat x.toNat y.toNat).cons 3, fun he => ?_⟩
    rw [cmp, compare_eq_iff_eq, UInt64.toNat_inj] at he
    rw [he]
  | uuid x =>
    cases b <;> first | (simp [rank] at h; done) | skip
    rename_i y
    refine ⟨(separates_wordBytes x.val y.val).cons 4, fun he => ?_⟩
    rw [cmp] at he
    rw [Subtype.ext (eq_of_lexCmp he)]
  | bytes x =>
    cases b <;> first | (simp [rank] at h; done) | skip
    rename_i y
    refine ⟨(separates_wordBytes x y).cons 5, fun he => ?_⟩
    rw [cmp] at he
    rw [eq_of_lexCmp he]
  | str x =>
    cases b <;> first | (simp [rank] at h; done) | skip
    rename_i y
    refine ⟨(separates_compareStr x y).cons 6, fun he => ?_⟩
    rw [cmp, compareStr] at he
    rw [utf8_injective (eq_of_lexCmp he)]
  | decimal x =>
    cases b <;> first | (simp [rank] at h; done) | skip
    rename_i y
    refine ⟨?_, fun he => ?_⟩
    · exact ((separates_nat _ _).append ((separates_nat _ _).append
        (Separates.singleton _ _))).cons 7
    · simp only [cmp, Ordering.then_eq_eq, compare_eq_iff_eq, UInt8.toNat_inj] at he
      rw [Decimal.ext he.2.2 he.2.1 he.1]
  | enum e x =>
    cases b <;> first | (simp [rank] at h; done) | skip
    rename_i e' y
    refine ⟨((separates_nat _ _).append (separates_nat _ _)).cons 8, fun he => ?_⟩
    simp only [cmp, Ordering.then_eq_eq, compare_eq_iff_eq, UInt32.toNat_inj,
      UInt64.toNat_inj] at he
    rw [he.1, he.2]
  | none =>
    cases b <;> first | (simp [rank] at h; done) | skip
    exact ⟨Separates.refl _, fun _ => rfl⟩
  | some x =>
    cases b <;> first | (simp [rank] at h; done) | skip
    rename_i y
    obtain ⟨hs, heq⟩ := separates_cmp x y
    exact ⟨hs.cons 10, fun he => by rw [heq he]⟩
  | set xs =>
    cases b <;> first | (simp [rank] at h; done) | skip
    rename_i ys
    obtain ⟨hs, heq⟩ := separates_cmpItems xs ys
    exact ⟨hs.cons 11, fun he => by rw [heq he]⟩
  | tuple xs =>
    cases b <;> first | (simp [rank] at h; done) | skip
    rename_i ys
    obtain ⟨hs, heq⟩ := separates_cmpItems xs ys
    exact ⟨hs.cons 12, fun he => by rw [heq he]⟩
  | row r fs =>
    cases b <;> first | (simp [rank] at h; done) | skip
    rename_i r' gs
    obtain ⟨hs, heq⟩ := separates_cmpFields fs gs
    refine ⟨((separates_nat _ _).append hs).cons 13, fun he => ?_⟩
    simp only [cmp, Ordering.then_eq_eq, compare_eq_iff_eq, UInt64.toNat_inj] at he
    rw [he.1, heq he.2]
  | struct fs =>
    cases b <;> first | (simp [rank] at h; done) | skip
    rename_i gs
    obtain ⟨hs, heq⟩ := separates_cmpFields fs gs
    exact ⟨hs.cons 14, fun he => by rw [heq he]⟩
  | unit =>
    cases b <;> first | (simp [rank] at h; done) | skip
    exact ⟨Separates.refl _, fun _ => rfl⟩

theorem separates_cmpItems (as bs : List Value) :
    Separates (cmpItems as bs) (wordItems as) (wordItems bs) ∧
      (cmpItems as bs = .eq → as = bs) := by
  cases as with
  | nil =>
    cases bs with
    | nil => exact ⟨Separates.refl _, fun _ => rfl⟩
    | cons b bs =>
      obtain ⟨w, hw⟩ := word_eq_cons b
      have h := separates_int (-1) b.rank [] (w ++ wordItems bs) (by omega)
      rw [compare_lt_iff_lt.mpr (by omega)] at h
      refine ⟨?_, fun he => by simp [cmpItems] at he⟩
      rw [wordItems, wordItems, hw]
      exact h
  | cons a as =>
    cases bs with
    | nil =>
      obtain ⟨w, hw⟩ := word_eq_cons a
      have h := separates_int a.rank (-1) (w ++ wordItems as) [] (by omega)
      rw [compare_gt_iff_gt.mpr (by omega)] at h
      refine ⟨?_, fun he => by simp [cmpItems] at he⟩
      rw [wordItems, wordItems, hw]
      exact h
    | cons b bs =>
      obtain ⟨hs, heq⟩ := separates_cmp a b
      obtain ⟨hs', heq'⟩ := separates_cmpItems as bs
      refine ⟨hs.append hs', fun he => ?_⟩
      rw [cmpItems, Ordering.then_eq_eq] at he
      rw [heq he.1, heq' he.2]

theorem separates_cmpFields (as bs : List (String × Value)) :
    Separates (cmpFields as bs) (wordFields as) (wordFields bs) ∧
      (cmpFields as bs = .eq → as = bs) := by
  cases as with
  | nil =>
    cases bs with
    | nil => exact ⟨Separates.refl _, fun _ => rfl⟩
    | cons b bs =>
      obtain ⟨n, v⟩ := b
      have h := separates_int (-1) 0 [] (wordBytes (utf8 n) ++ (word v ++ wordFields bs)) (by omega)
      exact ⟨h, fun he => by simp [cmpFields] at he⟩
  | cons a as =>
    obtain ⟨m, u⟩ := a
    cases bs with
    | nil =>
      have h := separates_int 0 (-1) (wordBytes (utf8 m) ++ (word u ++ wordFields as)) [] (by omega)
      exact ⟨h, fun he => by simp [cmpFields] at he⟩
    | cons b bs =>
      obtain ⟨n, v⟩ := b
      obtain ⟨hs, heq⟩ := separates_cmp u v
      obtain ⟨hs', heq'⟩ := separates_cmpFields as bs
      refine ⟨?_, fun he => ?_⟩
      · have h := ((separates_compareStr m n).append hs).append hs'
        rw [List.append_assoc, List.append_assoc] at h
        exact h.cons 0
      · rw [cmpFields, Ordering.then_eq_eq, Ordering.then_eq_eq, compareStr] at he
        rw [utf8_injective (eq_of_lexCmp he.1.1), heq he.1.2, heq' he.2]

end

lemma lexCmp_word (a b : Value) : lexCmp compare (word a) (word b) = cmp a b :=
  (separates_cmp a b).1.lexCmp_eq

lemma word_injective : Function.Injective word := by
  intro a b h
  apply (separates_cmp a b).2
  rw [← lexCmp_word, h, lexCmp_self]

lemma cmp_eq_iff {a b : Value} : cmp a b = .eq ↔ a = b := by
  refine ⟨(separates_cmp a b).2, ?_⟩
  rintro rfl
  rw [← lexCmp_word, lexCmp_self]

instance : DecidableEq Value := fun _ _ => decidable_of_iff _ cmp_eq_iff

/-- The order of values, by their words. -/
@[reducible] def byWord : LinearOrder Value := LinearOrder.lift' word word_injective

lemma cmp_lt_iff {a b : Value} : cmp a b = .lt ↔ byWord.lt a b := by
  rw [← lexCmp_word, lexCmp_lt_iff]
  exact Iff.rfl

instance : LinearOrder Value where
  le := byWord.le
  lt := byWord.lt
  le_refl := byWord.le_refl
  le_trans := byWord.le_trans
  lt_iff_le_not_ge := byWord.lt_iff_le_not_ge
  le_antisymm := byWord.le_antisymm
  le_total := byWord.le_total
  toDecidableLE := byWord.toDecidableLE
  toDecidableEq := inferInstance
  toDecidableLT := byWord.toDecidableLT
  compare := cmp
  compare_eq_compareOfLessAndEq a b := by
    rw [compareOfLessAndEq]
    split
    · rename_i h
      exact cmp_lt_iff.mpr h
    · rename_i hlt
      split
      · rename_i heq
        exact cmp_eq_iff.mpr heq
      · rename_i hne
        cases h : cmp a b with
        | lt => exact absurd (cmp_lt_iff.mp h) hlt
        | eq => exact absurd (cmp_eq_iff.mp h) hne
        | gt => rfl

end Value

end Lang

end CarolinaDB
