import CarolinaDB.Decimal

/-! The rational number a decimal denotes, and conversion and comparison across scales.
Both sides of a comparison are first written with the larger scale and 38 digits. -/
namespace CarolinaDB.Decimal

/-- The number a decimal denotes. -/
def toRat (d : Decimal) : ℚ := d.coefficient / 10 ^ d.scale.toNat

/-- The table of powers of ten. An index past its end panics. -/
def pow10 (n : ℕ) : CoreResult ℤ := if n < 39 then .ok (10 ^ n) else .error .panicked

/-- Exact rescale to a new precision and scale. -/
def rescale (d : Decimal) (precision scale : UInt8) : CoreResult Decimal :=
  if d.scale ≤ scale then do
    let f ← pow10 (scale - d.scale).toNat
    let c ← checkedI128 (d.coefficient * f) "rescale overflow"
    new c precision scale
  else do
    let f ← pow10 (d.scale - scale).toNat
    if d.coefficient.tmod f ≠ 0 then .error (.new .invalidDecimal "inexact decimal rescale")
    new (d.coefficient.tdiv f) precision scale

/-- Exact comparison across scales. -/
def cmpExact (d e : Decimal) : CoreResult Ordering := do
  let s := max d.scale e.scale
  let a ← d.rescale 38 s
  let b ← e.rescale 38 s
  .ok (compare a.coefficient b.coefficient)

/-- The coefficient of a decimal written with a scale at least its own. -/
def aligned (d : Decimal) (scale : UInt8) : ℤ :=
  d.coefficient * 10 ^ (scale.toNat - d.scale.toNat)

/-- Whether a coefficient is one of the type's. -/
def Fits (coefficient : ℤ) (precision scale : UInt8) : Prop :=
  precision ≠ 0 ∧ precision ≤ 38 ∧ scale ≤ precision ∧ |coefficient| < 10 ^ precision.toNat

lemma fits (d : Decimal) : Fits d.coefficient d.precision d.scale :=
  ⟨d.precision_pos, d.precision_le, d.scale_le, abs_lt.mpr d.range⟩

lemma new_eq_ok_iff {c : ℤ} {p s : UInt8} {d : Decimal} : new c p s = .ok d ↔
    d.coefficient = c ∧ d.precision = p ∧ d.scale = s := by
  constructor
  · intro h
    unfold new at h
    split_ifs at h
    cases h
    exact ⟨rfl, rfl, rfl⟩
  · rintro ⟨rfl, rfl, rfl⟩
    have hp : ¬ (d.precision = 0 ∨ 38 < d.precision) :=
      not_or.mpr ⟨d.precision_pos, UInt8.not_lt.mpr d.precision_le⟩
    have hr : ¬ (d.coefficient ≤ -(10 ^ d.precision.toNat) ∨
        10 ^ d.precision.toNat ≤ d.coefficient) :=
      not_or.mpr ⟨not_le.mpr d.range.1, not_le.mpr d.range.2⟩
    unfold new
    rw [dif_neg hp, dif_neg (UInt8.not_lt.mpr d.scale_le), dif_neg hr]

lemma exists_new_iff {c : ℤ} {p s : UInt8} : (∃ d, new c p s = .ok d) ↔ Fits c p s := by
  constructor
  · rintro ⟨d, h⟩
    obtain ⟨rfl, rfl, rfl⟩ := new_eq_ok_iff.mp h
    exact d.fits
  · rintro ⟨hp, hp', hs, hr⟩
    exact ⟨⟨c, p, s, hp, hp', hs, abs_lt.mp hr⟩, new_eq_ok_iff.mpr ⟨rfl, rfl, rfl⟩⟩

lemma new_ne_panicked {c : ℤ} {p s : UInt8} : new c p s ≠ .error .panicked := by
  unfold new
  split_ifs <;> simp [CoreError.panicked, CoreError.new]

/-- The only errors of a type that exists are overflows. -/
lemma new_eq_error {c : ℤ} {p s : UInt8} {e : CoreError} (hp : p ≠ 0) (hp' : p ≤ 38) (hs : s ≤ p)
    (h : new c p s = .error e) : e.code = .numericOverflow := by
  unfold new at h
  rw [dif_neg (not_or.mpr ⟨hp, UInt8.not_lt.mpr hp'⟩), dif_neg (UInt8.not_lt.mpr hs)] at h
  split_ifs at h
  cases h
  rfl

lemma checkedI128_eq_ok {x y : ℤ} {message : String} (h : checkedI128 x message = .ok y) :
    y = x := by
  unfold checkedI128 at h
  split_ifs at h
  exact (Except.ok.inj h).symm

lemma inI128_of_fits {c : ℤ} {p s : UInt8} (h : Fits c p s) : inI128 c :=
  inI128_coefficient ⟨c, p, s, h.1, h.2.1, h.2.2.1, abs_lt.mp h.2.2.2⟩

section rescale
variable {d e : Decimal} {p s : UInt8}

/-- Rescaling upwards gives the aligned coefficient, when it fits. -/
lemma rescale_up (hs : d.scale ≤ s) (h38 : s.toNat < d.scale.toNat + 39) :
    d.rescale p s = (checkedI128 (d.aligned s) "rescale overflow" >>= fun c => new c p s) := by
  have hsub : (s - d.scale).toNat = s.toNat - d.scale.toNat := UInt8.toNat_sub_of_le _ _ hs
  rw [rescale, if_pos hs, hsub, pow10, if_pos (by omega), CoreResult.ok_bind, aligned]

lemma rescale_up_eq_ok_iff (hs : d.scale ≤ s) (h38 : s.toNat < d.scale.toNat + 39) :
    d.rescale p s = .ok e ↔ e.coefficient = d.aligned s ∧ e.precision = p ∧ e.scale = s := by
  rw [rescale_up hs h38, CoreResult.bind_eq_ok_iff]
  constructor
  · rintro ⟨c, hc, h⟩
    rw [checkedI128_eq_ok hc] at h
    exact new_eq_ok_iff.mp h
  · intro h
    obtain ⟨hc, rfl, rfl⟩ := h
    have hin : inI128 (d.aligned e.scale) := hc ▸ inI128_of_fits e.fits
    exact ⟨d.aligned e.scale, by rw [checkedI128, if_pos hin], new_eq_ok_iff.mpr ⟨hc, rfl, rfl⟩⟩

lemma toRat_of_aligned (hs : d.scale ≤ s) (hc : e.coefficient = d.aligned s) (he : e.scale = s) :
    e.toRat = d.toRat := by
  have hle : d.scale.toNat ≤ s.toNat := hs
  have hpow : (10 : ℚ) ^ s.toNat = 10 ^ (s.toNat - d.scale.toNat) * 10 ^ d.scale.toNat := by
    rw [← pow_add, Nat.sub_add_cancel hle]
  rw [toRat, toRat, hc, he, aligned, hpow]
  push_cast
  field_simp

lemma toRat_rescale_up (hs : d.scale ≤ s) (h38 : s.toNat < d.scale.toNat + 39)
    (h : d.rescale p s = .ok e) : e.toRat = d.toRat ∧ e.precision = p ∧ e.scale = s := by
  obtain ⟨hc, hp, he⟩ := (rescale_up_eq_ok_iff hs h38).mp h
  exact ⟨toRat_of_aligned hs hc he, hp, he⟩

lemma rescale_up_ne_panicked (hs : d.scale ≤ s) (h38 : s.toNat < d.scale.toNat + 39) :
    d.rescale p s ≠ .error .panicked := by
  rw [rescale_up hs h38, checkedI128]
  split_ifs
  · exact new_ne_panicked
  · simp [CoreError.panicked, CoreError.new]

/-- Rescaling downwards divides, which the code does only when nothing is lost. -/
lemma rescale_down (hs : ¬ d.scale ≤ s) :
    d.rescale p s = if d.coefficient.tmod (10 ^ (d.scale.toNat - s.toNat)) ≠ 0 then
        .error (.new .invalidDecimal "inexact decimal rescale")
      else new (d.coefficient.tdiv (10 ^ (d.scale.toNat - s.toNat))) p s := by
  have hs' : s ≤ d.scale := UInt8.le_of_lt (UInt8.not_le.mp hs)
  have hsub : (d.scale - s).toNat = d.scale.toNat - s.toNat := UInt8.toNat_sub_of_le _ _ hs'
  have hscale : d.scale.toNat ≤ 38 := d.scale_le.trans d.precision_le
  rw [rescale, if_neg hs, hsub, pow10, if_pos (by omega), CoreResult.ok_bind]
  split_ifs <;> rfl

lemma toRat_rescale_down (hs : ¬ d.scale ≤ s) (h : d.rescale p s = .ok e) :
    e.toRat = d.toRat ∧ e.precision = p ∧ e.scale = s := by
  rw [rescale_down hs] at h
  split_ifs at h with hmod
  obtain ⟨hc, hp, he⟩ := new_eq_ok_iff.mp h
  refine ⟨?_, hp, he⟩
  have hexact : d.coefficient = e.coefficient * 10 ^ (d.scale.toNat - s.toNat) := by
    have hdiv := Int.mul_tdiv_add_tmod d.coefficient (10 ^ (d.scale.toNat - s.toNat))
    rw [not_not.mp hmod, ← hc] at hdiv
    linarith
  have hs' : s.toNat ≤ d.scale.toNat := Nat.le_of_lt (UInt8.not_le.mp hs)
  have hpow : (10 : ℚ) ^ d.scale.toNat = 10 ^ (d.scale.toNat - s.toNat) * 10 ^ s.toNat := by
    rw [← pow_add, Nat.sub_add_cancel hs']
  rw [toRat, toRat, he, hexact, hpow]
  push_cast
  field_simp

lemma rescale_down_ne_panicked (hs : ¬ d.scale ≤ s) : d.rescale p s ≠ .error .panicked := by
  rw [rescale_down hs]
  split_ifs
  · simp [CoreError.panicked, CoreError.new]
  · exact new_ne_panicked

end rescale

section cmpExact
variable {d e : Decimal}

/-- The order of two numbers is that of their coefficients at a common scale. -/
lemma compare_toRat {a b : Decimal} (ha : a.toRat = d.toRat) (hb : b.toRat = e.toRat)
    (hs : a.scale = b.scale) : compare a.coefficient b.coefficient = compare d.toRat e.toRat := by
  have hpos : (0 : ℚ) < 10 ^ b.scale.toNat := by positivity
  rw [← ha, ← hb, toRat, toRat, hs]
  rcases lt_trichotomy a.coefficient b.coefficient with h | h | h
  · rw [compare_lt_iff_lt.mpr h, eq_comm, compare_lt_iff_lt]
    exact (div_lt_div_iff_of_pos_right hpos).mpr (Int.cast_lt.mpr h)
  · rw [h, compare_eq_iff_eq.mpr rfl, compare_eq_iff_eq.mpr rfl]
  · rw [compare_gt_iff_gt.mpr h, eq_comm, compare_gt_iff_gt]
    exact (div_lt_div_iff_of_pos_right hpos).mpr (Int.cast_lt.mpr h)

lemma scale_lt (d : Decimal) : d.scale.toNat < 39 :=
  Nat.lt_succ_of_le (d.scale_le.trans d.precision_le)

/-- The scale both sides of a comparison are brought to. -/
lemma max_scale (d e : Decimal) :
    d.scale ≤ max d.scale e.scale ∧ e.scale ≤ max d.scale e.scale ∧
      (max d.scale e.scale).toNat < 39 := by
  have hmax : max d.scale e.scale = if d.scale ≤ e.scale then e.scale else d.scale := rfl
  rw [hmax]
  split_ifs with h
  · exact ⟨h, UInt8.le_refl _, e.scale_lt⟩
  · exact ⟨UInt8.le_refl _, UInt8.le_of_lt (UInt8.not_le.mp h), d.scale_lt⟩

/-- One side of a comparison can be brought to the common scale exactly when it keeps to
38 digits; else it overflows. -/
lemma rescale_wide {s : UInt8} (hs : d.scale ≤ s) (h38 : s.toNat < 39) :
    ((∃ a, d.rescale 38 s = .ok a) ↔ |d.aligned s| < 10 ^ 38) ∧
      ∀ err, d.rescale 38 s = .error err → err.code = .numericOverflow := by
  have hs38 : s ≤ 38 := Nat.le_of_lt_succ h38
  have hlt : s.toNat < d.scale.toNat + 39 := by omega
  constructor
  · constructor
    · rintro ⟨a, ha⟩
      obtain ⟨hc, hp, -⟩ := (rescale_up_eq_ok_iff hs hlt).mp ha
      have hfits := a.fits.2.2.2
      rwa [hc, hp] at hfits
    · intro h
      obtain ⟨a, ha⟩ := exists_new_iff.mpr (⟨by decide, by decide, hs38, h⟩ : Fits _ 38 s)
      exact ⟨a, (rescale_up_eq_ok_iff hs hlt).mpr (new_eq_ok_iff.mp ha)⟩
  · intro err herr
    rw [rescale_up hs hlt, checkedI128] at herr
    split_ifs at herr
    · exact new_eq_error (by decide) (by decide) hs38 herr
    · cases herr
      rfl

/-- A comparison that answers gives the order of the two numbers. -/
lemma cmpExact_eq_ok {o : Ordering} (h : cmpExact d e = .ok o) : o = compare d.toRat e.toRat := by
  obtain ⟨hd, he, hlt⟩ := max_scale d e
  obtain ⟨a, ha, h⟩ := CoreResult.bind_eq_ok h
  obtain ⟨b, hb, h⟩ := CoreResult.bind_eq_ok h
  obtain ⟨ha, -, has⟩ := toRat_rescale_up hd (by omega) ha
  obtain ⟨hb, -, hbs⟩ := toRat_rescale_up he (by omega) hb
  rw [← Except.ok.inj h]
  exact compare_toRat ha hb (has.trans hbs.symm)

lemma exists_cmpExact_iff : (∃ o, cmpExact d e = .ok o) ↔
    |d.aligned (max d.scale e.scale)| < 10 ^ 38 ∧ |e.aligned (max d.scale e.scale)| < 10 ^ 38 := by
  obtain ⟨hd, he, hlt⟩ := max_scale d e
  rw [← (rescale_wide hd hlt).1, ← (rescale_wide he hlt).1]
  constructor
  · rintro ⟨o, h⟩
    obtain ⟨a, ha, h⟩ := CoreResult.bind_eq_ok h
    obtain ⟨b, hb, -⟩ := CoreResult.bind_eq_ok h
    exact ⟨⟨a, ha⟩, b, hb⟩
  · rintro ⟨⟨a, ha⟩, b, hb⟩
    exact ⟨compare a.coefficient b.coefficient, by rw [cmpExact, ha, CoreResult.ok_bind, hb]; rfl⟩

lemma cmpExact_eq_error {err : CoreError} (h : cmpExact d e = .error err) :
    err.code = .numericOverflow := by
  obtain ⟨hd, he, hlt⟩ := max_scale d e
  rw [cmpExact] at h
  cases ha : d.rescale 38 (max d.scale e.scale) with
  | error err' =>
    rw [ha] at h
    cases h
    exact (rescale_wide hd hlt).2 _ ha
  | ok a =>
    cases hb : e.rescale 38 (max d.scale e.scale) with
    | error err' =>
      rw [ha, hb] at h
      cases h
      exact (rescale_wide he hlt).2 _ hb
    | ok b =>
      rw [ha, hb] at h
      cases h

end cmpExact

/-- Comparison answers exactly when both sides fit 38 digits at the larger scale, with the order
of the numbers; and a rescale of at most 38 places gives the same number or refuses. -/
theorem cmpExact_and_rescale_exact :
    (∀ d e : Decimal,
      ((∃ o, cmpExact d e = .ok o) ↔
        |d.aligned (max d.scale e.scale)| < 10 ^ 38 ∧
          |e.aligned (max d.scale e.scale)| < 10 ^ 38) ∧
      (∀ o, cmpExact d e = .ok o → o = compare d.toRat e.toRat) ∧
      ∀ err, cmpExact d e = .error err → err.code = .numericOverflow) ∧
    ∀ (d : Decimal) (p s : UInt8), s.toNat ≤ d.scale.toNat + 38 →
      d.rescale p s ≠ .error .panicked ∧
        ∀ e, d.rescale p s = .ok e → e.toRat = d.toRat ∧ e.precision = p ∧ e.scale = s := by
  constructor
  · intro d e
    exact ⟨exists_cmpExact_iff, fun o => cmpExact_eq_ok, fun err => cmpExact_eq_error⟩
  · intro d p s h38
    by_cases hs : d.scale ≤ s
    · have hlt : s.toNat < d.scale.toNat + 39 := by omega
      exact ⟨rescale_up_ne_panicked hs hlt, fun e => toRat_rescale_up hs hlt⟩
    · exact ⟨rescale_down_ne_panicked hs, fun e => toRat_rescale_down hs⟩

theorem cmpExact_and_rescale_exact_tenth : ∃ d e : Decimal,
    new 10 2 1 = .ok d ∧ new 100 10 2 = .ok e ∧ (∃ o, cmpExact d e = .ok o) ∧
      d.rescale 12 4 ≠ .error .panicked := by
  refine ⟨⟨10, 2, 1, by decide, by decide, by decide, by decide⟩,
    ⟨100, 10, 2, by decide, by decide, by decide, by decide⟩,
    new_eq_ok_iff.mpr ⟨rfl, rfl, rfl⟩, new_eq_ok_iff.mpr ⟨rfl, rfl, rfl⟩, ?_, ?_⟩
  · exact (cmpExact_and_rescale_exact.1 _ _).1.mpr ⟨by decide, by decide⟩
  · exact (cmpExact_and_rescale_exact.2 _ 12 4 (by decide)).1

/-- Ten cannot be compared with zero written with 38 places, although both are valid. -/
theorem cmpExact_overflows : ∃ d e : Decimal,
    new 10 2 0 = .ok d ∧ new 0 38 38 = .ok e ∧ ¬ ∃ o, cmpExact d e = .ok o := by
  refine ⟨⟨10, 2, 0, by decide, by decide, by decide, by decide⟩,
    ⟨0, 38, 38, by decide, by decide, by decide, by decide⟩,
    new_eq_ok_iff.mpr ⟨rfl, rfl, rfl⟩, new_eq_ok_iff.mpr ⟨rfl, rfl, rfl⟩, ?_⟩
  rw [exists_cmpExact_iff]
  intro h
  exact absurd h.1 (by decide)

end CarolinaDB.Decimal
