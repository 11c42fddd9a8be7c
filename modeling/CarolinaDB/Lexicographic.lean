import CarolinaDB.Bytes

/-!
# Codes that keep an order under concatenation

Lists are compared lexicographically. Two code words *separate* an outcome of a
comparison if they decide it whatever follows them; separating words may be
concatenated. Words of one length always separate, so the big-endian digits of a
number do.
-/
namespace CarolinaDB.Lexicographic

variable {α : Type}

/-- Compare two lists item by item; a proper initial part comes first. -/
def lexCmp (cmp : α → α → Ordering) : List α → List α → Ordering
  | [], [] => .eq
  | [], _ :: _ => .lt
  | _ :: _, [] => .gt
  | a :: as, b :: bs => (cmp a b).then (lexCmp cmp as bs)

section Compare
variable [LinearOrder α]

lemma compare_self_eq (a : α) : compare a a = .eq := compare_eq_iff_eq.mpr rfl

lemma lexCmp_append (x r s : List α) :
    lexCmp compare (x ++ r) (x ++ s) = lexCmp compare r s := by
  induction x with
  | nil => rfl
  | cons a x ih => simpa [lexCmp, compare_self_eq] using ih

lemma lexCmp_self (x : List α) : lexCmp compare x x = .eq := by
  simpa [lexCmp] using lexCmp_append x [] []

lemma eq_of_lexCmp {x y : List α} (h : lexCmp compare x y = .eq) : x = y := by
  induction x generalizing y with
  | nil =>
    cases y with
    | nil => rfl
    | cons b y => simp [lexCmp] at h
  | cons a x ih =>
    cases y with
    | nil => simp [lexCmp] at h
    | cons b y =>
      rw [lexCmp, Ordering.then_eq_eq, compare_eq_iff_eq] at h
      rw [h.1, ih h.2]

/-- The words `x` and `y` decide the comparison `o`, whatever comes after them. -/
def Separates (o : Ordering) (x y : List α) : Prop :=
  (o = .eq → x = y) ∧ (o ≠ .eq → ∀ r s, lexCmp compare (x ++ r) (y ++ s) = o)

namespace Separates
variable {o o' : Ordering} {x y x' y' : List α}

lemma refl (x : List α) : Separates .eq x x := ⟨fun _ => rfl, fun h => absurd rfl h⟩

lemma singleton (a b : α) : Separates (compare a b) [a] [b] := by
  refine ⟨fun he => by rw [compare_eq_iff_eq.mp he], fun hne r s => ?_⟩
  cases hab : compare a b with
  | eq => exact absurd hab hne
  | lt => simp [lexCmp, hab]
  | gt => simp [lexCmp, hab]

/-- Behind words that differ anything may follow. -/
lemma append_right (h : Separates o x y) (ho : o ≠ .eq) (x' y' : List α) :
    Separates o (x ++ x') (y ++ y') := by
  refine ⟨fun he => absurd he ho, fun _ r s => ?_⟩
  rw [List.append_assoc, List.append_assoc]
  exact h.2 ho _ _

/-- Separating words may be concatenated; the first difference decides. -/
theorem append (h : Separates o x y) (h' : Separates o' x' y') :
    Separates (o.then o') (x ++ x') (y ++ y') := by
  by_cases ho : o = .eq
  · obtain rfl := h.1 ho
    subst ho
    refine ⟨fun he => ?_, fun hne r s => ?_⟩
    · rw [h'.1 he]
    · rw [List.append_assoc, List.append_assoc, lexCmp_append]
      exact h'.2 hne r s
  · have hthen : o.then o' = o := by
      cases o with
      | eq => exact absurd rfl ho
      | lt => rfl
      | gt => rfl
    rw [hthen]
    exact h.append_right ho x' y'

lemma cons (a : α) (h : Separates o x y) : Separates o (a :: x) (a :: y) :=
  (refl [a]).append h

/-- Words of one length separate. -/
theorem of_length (h : x.length = y.length) : Separates (lexCmp compare x y) x y := by
  induction x generalizing y with
  | nil =>
    obtain rfl := List.length_eq_zero_iff.mp h.symm
    exact refl []
  | cons a x ih =>
    cases y with
    | nil => simp at h
    | cons b y => exact (singleton a b).append (ih (Nat.succ.inj h))

/-- The comparison of the words themselves. -/
lemma lexCmp_eq (h : Separates o x y) : lexCmp compare x y = o := by
  by_cases ho : o = .eq
  · rw [ho, h.1 ho, lexCmp_self]
  · simpa using h.2 ho [] []

end Separates

end Compare

section BigEndian

/-- The last `n` digits of `x` to the base 256, the most significant one first. -/
def bigEndian : ℕ → ℕ → List UInt8
  | 0, _ => []
  | n+1, x => UInt8.ofNat (x / 256 ^ n) :: bigEndian n x

/-- The number with these digits. -/
def fromBigEndian (bytes : List UInt8) : ℕ := bytes.foldl (fun x b => x * 256 + b.toNat) 0

@[simp] lemma length_bigEndian (n x : ℕ) : (bigEndian n x).length = n := by
  induction n with
  | zero => rfl
  | succ n ih => simp [bigEndian, ih]

/-- The quotient decides first, the remainder after it. -/
lemma compare_mul_add {m a b r s : ℕ} (hr : r < m) (hs : s < m) :
    compare (m * a + r) (m * b + s) = (compare a b).then (compare r s) := by
  rcases lt_trichotomy a b with h | rfl | h
  · have hlt : m * a + r < m * b + s := calc
      m * a + r < m * (a + 1) := by rw [Nat.mul_succ]; omega
      _ ≤ m * b := Nat.mul_le_mul_left m h
      _ ≤ m * b + s := Nat.le_add_right _ _
    simp [compare_lt_iff_lt.mpr h, compare_lt_iff_lt.mpr hlt]
  · rcases lt_trichotomy r s with h | rfl | h
    · rw [compare_lt_iff_lt.mpr h, compare_self_eq, compare_lt_iff_lt.mpr (Nat.add_lt_add_left h _)]
      rfl
    · simp
    · rw [compare_gt_iff_gt.mpr h, compare_self_eq, compare_gt_iff_gt.mpr (Nat.add_lt_add_left h _)]
      rfl
  · have hlt : m * b + s < m * a + r := calc
      m * b + s < m * (b + 1) := by rw [Nat.mul_succ]; omega
      _ ≤ m * a := Nat.mul_le_mul_left m h
      _ ≤ m * a + r := Nat.le_add_right _ _
    simp [compare_gt_iff_gt.mpr h, compare_gt_iff_gt.mpr hlt]

lemma compare_ofNat (x y : ℕ) :
    compare (UInt8.ofNat x) (UInt8.ofNat y) = compare (x % 256) (y % 256) := by
  have hx : (UInt8.ofNat x).toNat = x % 256 := UInt8.toNat_ofNat'
  have hy : (UInt8.ofNat y).toNat = y % 256 := UInt8.toNat_ofNat'
  rcases lt_trichotomy (x % 256) (y % 256) with h | h | h
  · rw [compare_lt_iff_lt.mpr h, compare_lt_iff_lt, UInt8.lt_iff_toNat_lt, hx, hy]
    exact h
  · rw [compare_eq_iff_eq.mpr h, compare_eq_iff_eq, ← UInt8.toNat_inj, hx, hy]
    exact h
  · rw [compare_gt_iff_gt.mpr h, compare_gt_iff_gt, UInt8.lt_iff_toNat_lt, hx, hy]
    exact h

theorem lexCmp_bigEndian (n x y : ℕ) : lexCmp compare (bigEndian n x) (bigEndian n y) =
    compare (x % 256 ^ n) (y % 256 ^ n) := by
  induction n with
  | zero => simp [bigEndian, lexCmp, Nat.mod_one]
  | succ n ih =>
    have hpos : 0 < 256 ^ n := Nat.pow_pos (by norm_num)
    rw [bigEndian, bigEndian, lexCmp, ih, compare_ofNat, pow_succ, Nat.mod_mul, Nat.mod_mul,
      Nat.add_comm, Nat.add_comm (y % _),
      compare_mul_add (Nat.mod_lt _ hpos) (Nat.mod_lt _ hpos)]

lemma fromBigEndian_bigEndian (n x : ℕ) : fromBigEndian (bigEndian n x) = x % 256 ^ n := by
  suffices h : ∀ a, (bigEndian n x).foldl (fun x b => x * 256 + b.toNat) a =
      a * 256 ^ n + x % 256 ^ n by
    simpa [fromBigEndian] using h 0
  induction n with
  | zero => simp [bigEndian, Nat.mod_one]
  | succ n ih =>
    intro a
    have hmod : x % 256 ^ (n+1) = x % 256 ^ n + 256 ^ n * (x / 256 ^ n % 256) := Nat.mod_mul
    have hbyte : (UInt8.ofNat (x / 256 ^ n)).toNat = x / 256 ^ n % 256 := UInt8.toNat_ofNat'
    rw [bigEndian, List.foldl_cons, ih, hbyte, hmod]
    ring

end BigEndian

end CarolinaDB.Lexicographic
