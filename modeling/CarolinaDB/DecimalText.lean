import CarolinaDB.DecimalExact

/-! Decimal texts: how a decimal is written and which texts are read as one. A text that is
read is a numeral, that is an optional minus, digits, and possibly a point with digits after it. -/
namespace CarolinaDB.Decimal

/-- Human text with exactly as many fractional digits as the scale. -/
def toText (d : Decimal) : String :=
  let s := (toString d.coefficient.natAbs).toList
  let scale := d.scale.toNat
  let sign := if d.coefficient < 0 then ['-'] else []
  String.ofList (sign ++
    if scale = 0 then s
    else if s.length ≤ scale then '0' :: '.' :: (List.replicate (scale - s.length) '0' ++ s)
    else s.take (s.length - scale) ++ '.' :: s.drop (s.length - scale))

/-- A numeral by its parts. The digits after the point may be missing. -/
structure Numeral where
  negative : Bool
  whole : List Char
  fraction : Option (List Char)
  whole_ne : whole ≠ []
  whole_digits : ∀ c ∈ whole, c.isDigit
  fraction_digits : ∀ c ∈ fraction.getD [], c.isDigit

/-- A text without its minus, if it has one. -/
def stripSign : List Char → Bool × List Char
  | '-' :: rest => (true, rest)
  | body => (false, body)

/-- One more digit of a literal. -/
def pushDigit (c : ℤ) (b : Char) : CoreResult ℤ := do
  let x ← checkedI128 (c * 10) "decimal literal overflow"
  checkedI128 (x + (b.toNat - '0'.toNat : ℕ)) "decimal literal overflow"

namespace Numeral

def body (t : Numeral) : List Char :=
  t.whole ++ match t.fraction with
    | none => []
    | some f => '.' :: f

def text (t : Numeral) : String := String.ofList ((if t.negative then ['-'] else []) ++ t.body)

/-- All digits, as those of one whole number. -/
def digits (t : Numeral) : List Char := t.whole ++ t.fraction.getD []

def magnitude (t : Numeral) : ℕ := Nat.ofDigitChars 10 t.digits 0

/-- How many digits stand after the point. -/
def places (t : Numeral) : ℕ := (t.fraction.getD []).length

/-- The coefficient of a numeral written with that many places. -/
def coefficient (t : Numeral) (scale : ℕ) : ℤ :=
  let c := (t.magnitude * 10 ^ (scale - t.places) : ℕ)
  if t.negative then -c else c

/-- The number a numeral denotes. -/
def value (t : Numeral) : ℚ := (if t.negative then -1 else 1) * t.magnitude / 10 ^ t.places

/-- The documented form: a point is followed by at least one digit. -/
def Documented (t : Numeral) : Prop := t.fraction ≠ some []

/-- A zero in front of other digits of the whole part. -/
def Redundant (t : Numeral) : Prop := 1 < t.whole.length ∧ t.whole.head? = some '0'

end Numeral

lemma isDigit_ne {c x : Char} (h : c.isDigit) (hx : x.isDigit = false) : c ≠ x := by
  rintro rfl
  simp [hx] at h

namespace Numeral

lemma toList_text (t : Numeral) :
    t.text.toList = (if t.negative then ['-'] else []) ++ t.body := by
  simp [text]

lemma body_cons (t : Numeral) : ∃ c cs, t.body = c :: cs ∧ c.isDigit := by
  obtain ⟨c, cs, h⟩ := List.exists_cons_of_ne_nil t.whole_ne
  exact ⟨c, cs ++ _, by rw [body, h, List.cons_append], t.whole_digits c (by simp [h])⟩

lemma stripSign_text (t : Numeral) : stripSign t.text.toList = (t.negative, t.body) := by
  obtain ⟨c, cs, hbody, hc⟩ := t.body_cons
  have hne : c ≠ '-' := isDigit_ne hc (by decide)
  rw [t.toList_text]
  cases t.negative with
  | true => rfl
  | false => simp [hbody, stripSign, hne]

lemma takeWhile_body (t : Numeral) : t.body.takeWhile (· ≠ '.') = t.whole := by
  have hpoint : ∀ c ∈ t.whole, decide (c ≠ '.') = true := fun c hc =>
    decide_eq_true (isDigit_ne (t.whole_digits c hc) (by decide))
  rw [body, List.takeWhile_append_of_pos hpoint]
  cases t.fraction <;> simp

lemma dropWhile_body (t : Numeral) : (t.body.dropWhile (· ≠ '.')).tail = t.fraction.getD [] := by
  have hpoint : ∀ c ∈ t.whole, decide (c ≠ '.') = true := fun c hc =>
    decide_eq_true (isDigit_ne (t.whole_digits c hc) (by decide))
  rw [body, List.dropWhile_append_of_pos hpoint]
  cases t.fraction <;> simp

end Numeral

/-- The part of reading that comes after the sign. -/
def parseBody (text : String) (neg : Bool) (body : List Char) (p s : UInt8) :
    CoreResult Decimal := do
  let invalid := CoreError.new .invalidDecimal ("invalid decimal literal `" ++ text ++ "`")
  if body = [] ∨ body.head? = some '+' then .error invalid
  let intPart := body.takeWhile (· ≠ '.')
  let fracPart := (body.dropWhile (· ≠ '.')).tail
  if intPart = [] ∨ ¬ intPart.all Char.isDigit ∨ ¬ fracPart.all Char.isDigit then .error invalid
  if 1 < intPart.length ∧ intPart.head? = some '0' then
    .error (.new .invalidDecimal "redundant leading zero in decimal literal")
  if s.toNat < fracPart.length then
    .error (.new .invalidDecimal ("literal `" ++ text ++ "` has more than " ++ toString s ++
      " fractional digits"))
  let digits := intPart ++ fracPart ++ List.replicate (s.toNat - fracPart.length) '0'
  if 39 < digits.length then .error (.new .numericOverflow "decimal literal too long")
  let c ← digits.foldlM pushDigit 0
  if neg ∧ c = 0 then .error (.new .invalidDecimal "signed zero is forbidden")
  new (if neg then -c else c) p s

lemma parse_eq (text : String) (p s : UInt8) :
    parse text p s = parseBody text (stripSign text.toList).1 (stripSign text.toList).2 p s := by
  unfold parse
  split
  next neg body hsplit =>
    have hstrip : stripSign text.toList = (neg, body) := by
      rw [← hsplit]
      split
      next rest htext => rw [htext, stripSign]
      next hneg => exact stripSign.eq_2 _ hneg
    rw [hstrip]
    rfl

lemma inI128_natCast (n : ℕ) : inI128 n = decide (n < 2 ^ 127) := by
  rw [inI128]
  apply decide_eq_decide.mpr
  constructor
  · intro h
    exact_mod_cast h.2
  · intro h
    exact ⟨(neg_nonpos.mpr (by positivity)).trans (Int.natCast_nonneg n), by exact_mod_cast h⟩

/-- The digits of a literal add up, unless the number leaves the machine's range. -/
lemma pushDigit_eq {n : ℕ} {b : Char} : pushDigit n b =
    if 10 * n + (b.toNat - '0'.toNat) < 2 ^ 127 then
      .ok ((10 * n + (b.toNat - '0'.toNat) : ℕ) : ℤ)
    else .error (.new .numericOverflow "decimal literal overflow") := by
  have hten : (n : ℤ) * 10 = (10 * n : ℕ) := by push_cast; ring
  rw [pushDigit, hten, checkedI128, inI128_natCast]
  by_cases h : 10 * n < 2 ^ 127
  · rw [decide_eq_true h, if_pos rfl, CoreResult.ok_bind, checkedI128, ← Nat.cast_add,
      inI128_natCast]
    simp only [decide_eq_true_eq]
  · rw [decide_eq_false h, if_neg Bool.false_ne_true, if_neg (by omega)]
    rfl

lemma foldlM_pushDigit {cs : List Char} {n : ℕ} (hn : n < 2 ^ 127) :
    cs.foldlM pushDigit (n : ℤ) = if Nat.ofDigitChars 10 cs n < 2 ^ 127 then
        .ok (Nat.ofDigitChars 10 cs n : ℤ)
      else .error (.new .numericOverflow "decimal literal overflow") := by
  induction cs generalizing n with
  | nil =>
    rw [Nat.ofDigitChars_nil, if_pos hn]
    rfl
  | cons b cs ih =>
    have hgrow : 10 * n + (b.toNat - '0'.toNat) ≤ Nat.ofDigitChars 10 (b :: cs) n := by
      rw [Nat.ofDigitChars_cons, Nat.ofDigitChars_eq_ofDigitChars_zero]
      exact (Nat.le_mul_of_pos_left _ (by positivity)).trans (Nat.le_add_right _ _)
    rw [List.foldlM_cons, pushDigit_eq]
    by_cases hlt : 10 * n + (b.toNat - '0'.toNat) < 2 ^ 127
    · rw [if_pos hlt, CoreResult.ok_bind, ih hlt, ← Nat.ofDigitChars_cons]
    · rw [if_neg hlt, if_neg (by omega)]
      rfl

/-- Only numerals are read. -/
lemma exists_numeral {text : String} {p s : UInt8} {d : Decimal} (h : parse text p s = .ok d) :
    ∃ t : Numeral, t.text = text := by
  rw [parse_eq] at h
  unfold parseBody at h
  simp only [CoreResult.guard_eq_ok_iff] at h
  obtain ⟨-, hform, -⟩ := h
  simp only [not_or, not_not, List.all_eq_true] at hform
  obtain ⟨hne, hwhole, hfraction⟩ := hform
  generalize hstrip : stripSign text.toList = split at hne hwhole hfraction
  obtain ⟨neg, body⟩ := split
  have htext : text = String.ofList ((if neg then ['-'] else []) ++ body) := by
    rw [← String.ofList_toList (s := text)]
    congr 1
    unfold stripSign at hstrip
    split at hstrip <;> cases hstrip <;> simp_all
  have hbody := List.takeWhile_append_dropWhile (p := fun c => decide (c ≠ '.')) (l := body)
  cases hdrop : body.dropWhile (fun c => decide (c ≠ '.')) with
  | nil =>
    rw [hdrop, List.append_nil] at hbody
    refine ⟨⟨neg, body.takeWhile (fun c => decide (c ≠ '.')), none, hne, hwhole, by simp⟩, ?_⟩
    simp only [Numeral.text, Numeral.body, List.append_nil, hbody]
    exact htext.symm
  | cons c f =>
    have hc : c = '.' := by
      have hhead := List.head?_dropWhile_not (fun c => decide (c ≠ '.')) body
      rw [hdrop] at hhead
      simpa using hhead
    subst hc
    rw [hdrop] at hbody hfraction
    refine ⟨⟨neg, body.takeWhile (fun c => decide (c ≠ '.')), some f, hne, hwhole, hfraction⟩, ?_⟩
    simp only [Numeral.text, Numeral.body, htext, hbody]

namespace Numeral
variable {t : Numeral}

lemma ofDigitChars_padded (t : Numeral) (k : ℕ) :
    Nat.ofDigitChars 10 (t.digits ++ List.replicate k '0') 0 = t.magnitude * 10 ^ k := by
  rw [Nat.ofDigitChars_append, Nat.ofDigitChars_replicate_zero, magnitude, mul_comm]

/-- A leading digit other than zero gives the number its size. -/
lemma pow_le_ofDigitChars {c : Char} {cs : List Char} (hc : c.isDigit) (hne : c ≠ '0') :
    10 ^ cs.length ≤ Nat.ofDigitChars 10 (c :: cs) 0 := by
  have hpos : 1 ≤ c.toNat - '0'.toNat := by
    obtain ⟨hlo, -⟩ := Char.isDigit_iff_toNat.mp hc
    have hne' : c.toNat ≠ '0'.toNat := fun h => hne (Char.toNat_inj.mp h)
    omega
  rw [Nat.ofDigitChars_cons, Nat.ofDigitChars_eq_ofDigitChars_zero, Nat.mul_zero, Nat.zero_add]
  exact (Nat.le_mul_of_pos_right _ hpos).trans (Nat.le_add_right _ _)

/-- A numeral that fits 38 digits at a scale is not too long there. -/
lemma length_le (hred : ¬ t.Redundant) {s : ℕ} (hs : t.places ≤ s) (h38 : s ≤ 38)
    (hfits : t.magnitude * 10 ^ (s - t.places) < 10 ^ 38) :
    (t.digits ++ List.replicate (s - t.places) '0').length ≤ 39 := by
  obtain ⟨c, cs, hcons⟩ := List.exists_cons_of_ne_nil t.whole_ne
  have hlen : (t.digits ++ List.replicate (s - t.places) '0').length = t.whole.length + s := by
    simp only [List.length_append, List.length_replicate, digits]
    rw [places] at hs ⊢
    omega
  by_cases hone : t.whole.length ≤ 1
  · omega
  · have hne : c ≠ '0' := by
      intro h
      exact hred ⟨by omega, by rw [hcons, h]; rfl⟩
    have hdigit : c.isDigit := t.whole_digits c (by simp [hcons])
    rw [← t.ofDigitChars_padded] at hfits
    rw [digits, hcons, List.cons_append, List.cons_append] at hfits hlen
    have hlow := (pow_le_ofDigitChars hdigit hne).trans_lt hfits
    have hlt := (Nat.pow_lt_pow_iff_right (by norm_num)).mp hlow
    rw [digits, hcons, List.cons_append, List.cons_append, List.length_cons]
    omega

end Numeral

lemma abs_lt_pow38 (d : Decimal) : |d.coefficient| < 10 ^ 38 :=
  d.fits.2.2.2.trans_le (pow_le_pow_right₀ (by norm_num) d.precision_le)

lemma Numeral.abs_coefficient (t : Numeral) (s : ℕ) :
    |t.coefficient s| = (t.magnitude * 10 ^ (s - t.places) : ℕ) := by
  rw [Numeral.coefficient]
  split_ifs <;> simp only [abs_neg, Nat.abs_cast]

/-- A numeral is read exactly when it has no redundant zero and no more places than the scale,
is not a negative zero, and its coefficient is one of the type's. -/
lemma parse_text_eq_ok_iff (t : Numeral) {p s : UInt8} {d : Decimal} :
    parse t.text p s = .ok d ↔ ¬ t.Redundant ∧ t.places ≤ s.toNat ∧
      ¬ (t.negative ∧ t.magnitude = 0) ∧
      d.coefficient = t.coefficient s.toNat ∧ d.precision = p ∧ d.scale = s := by
  obtain ⟨c, cs, hbody, hc⟩ := t.body_cons
  have hplus : ¬ (t.body = [] ∨ t.body.head? = some '+') := by
    simp [hbody, isDigit_ne hc (x := '+') (by decide)]
  have hform : ¬ (t.whole = [] ∨ ¬ t.whole.all Char.isDigit ∨
      ¬ (t.fraction.getD []).all Char.isDigit) := by
    simp only [List.all_eq_true, not_or, not_not]
    exact ⟨t.whole_ne, t.whole_digits, t.fraction_digits⟩
  have hfold : (t.digits ++ List.replicate (s.toNat - t.places) '0').foldlM pushDigit 0 = _ :=
    foldlM_pushDigit (n := 0) (by norm_num)
  rw [t.ofDigitChars_padded] at hfold
  rw [parse_eq, t.stripSign_text]
  unfold parseBody
  simp only [CoreResult.guard_eq_ok_iff, CoreResult.bind_eq_ok_iff, t.takeWhile_body, t.dropWhile_body]
  change _ ∧ _ ∧ ¬ t.Redundant ∧ ¬ s.toNat < t.places ∧
    ¬ 39 < (t.digits ++ List.replicate (s.toNat - t.places) '0').length ∧
    (∃ a, (t.digits ++ List.replicate (s.toNat - t.places) '0').foldlM pushDigit 0 = .ok a ∧ _) ↔ _
  rw [hfold]
  have hzero : (t.magnitude * 10 ^ (s.toNat - t.places) = 0) ↔ t.magnitude = 0 := by simp
  constructor
  · intro h
    obtain ⟨-, -, hred, hplaces, -, a, ha, hsign, hnew⟩ := h
    split_ifs at ha
    obtain rfl := Except.ok.inj ha
    refine ⟨hred, not_lt.mp hplaces, ?_, new_eq_ok_iff.mp hnew⟩
    rwa [Nat.cast_eq_zero, hzero] at hsign
  · rintro ⟨hred, hplaces, hsign, hcoeff, hp, hs⟩
    have hfits : t.magnitude * 10 ^ (s.toNat - t.places) < 10 ^ 38 := by
      have habs := d.abs_lt_pow38
      rw [hcoeff, t.abs_coefficient] at habs
      exact_mod_cast habs
    have hmax : t.magnitude * 10 ^ (s.toNat - t.places) < 2 ^ 127 := hfits.trans (by norm_num)
    have hlen := t.length_le hred hplaces (hs ▸ Nat.le_of_lt_succ d.scale_lt) hfits
    rw [if_pos hmax]
    refine ⟨hplus, hform, hred, not_lt.mpr hplaces, not_lt.mpr hlen, _, rfl, ?_,
      new_eq_ok_iff.mpr ⟨hcoeff, hp, hs⟩⟩
    rwa [Nat.cast_eq_zero, hzero]

/-- A numeral that is read denotes the decimal it is read as. -/
lemma toRat_of_coefficient {t : Numeral} {d : Decimal} (hplaces : t.places ≤ d.scale.toNat)
    (hcoeff : d.coefficient = t.coefficient d.scale.toNat) : d.toRat = t.value := by
  have hpow : (10 : ℚ) ^ d.scale.toNat = 10 ^ (d.scale.toNat - t.places) * 10 ^ t.places := by
    rw [← pow_add, Nat.sub_add_cancel hplaces]
  rw [toRat, hcoeff, Numeral.coefficient, Numeral.value, hpow]
  cases t.negative <;> push_cast <;> field_simp
  simp

section toText

lemma head_toDigits {n : ℕ} (h : (Nat.toDigits 10 n).head? = some '0') : n = 0 := by
  induction n using Nat.strong_induction_on with
  | _ n ih =>
    by_cases hlt : n < 10
    · rw [Nat.toDigits_of_lt_base hlt] at h
      interval_cases n <;> simp_all
    · rw [Nat.toDigits_of_base_le (by norm_num) (by omega)] at h
      have hne := Nat.toDigits_ne_nil (b := 10) (n := n / 10)
      rw [List.head?_append_of_ne_nil _ hne] at h
      have := ih (n / 10) (by omega) h
      omega

/-- The text of a decimal is a numeral with as many places as the scale. -/
lemma exists_numeral_toText (d : Decimal) : ∃ t : Numeral, t.text = d.toText ∧
    ¬ t.Redundant ∧ t.places = d.scale.toNat ∧ t.magnitude = d.coefficient.natAbs ∧
      t.negative = decide (d.coefficient < 0) := by
  have hs : (toString d.coefficient.natAbs).toList = Nat.toDigits 10 d.coefficient.natAbs := by
    rw [Nat.toString_eq_ofList_toDigits, String.toList_ofList]
  have hdigit : ∀ c ∈ Nat.toDigits 10 d.coefficient.natAbs, c.isDigit := fun c hc =>
    Nat.isDigit_of_mem_toDigits (by norm_num) le_rfl hc
  have hvalue : Nat.ofDigitChars 10 (Nat.toDigits 10 d.coefficient.natAbs) 0 =
      d.coefficient.natAbs := Nat.ofDigitChars_ten_toDigits
  have hzero : (Nat.toDigits 10 d.coefficient.natAbs).head? = some '0' →
      (Nat.toDigits 10 d.coefficient.natAbs).length = 1 := fun h => by
    rw [head_toDigits h, Nat.toDigits_zero]
    rfl
  have hne := Nat.toDigits_ne_nil (b := 10) (n := d.coefficient.natAbs)
  unfold toText
  rw [hs]
  generalize Nat.toDigits 10 d.coefficient.natAbs = s at *
  dsimp only
  by_cases h0 : d.scale.toNat = 0
  · refine ⟨⟨decide (d.coefficient < 0), s, none, hne, hdigit, by simp⟩, ?_, ?_, ?_, ?_, rfl⟩
    · simp [Numeral.text, Numeral.body, h0]
    · intro hred
      have hlen := hzero hred.2
      have hmany : 1 < s.length := hred.1
      omega
    · simp [Numeral.places, h0]
    · simpa [Numeral.magnitude, Numeral.digits] using hvalue
  by_cases hshort : s.length ≤ d.scale.toNat
  · have hpad : ∀ c ∈ List.replicate (d.scale.toNat - s.length) '0' ++ s, c.isDigit := by
      intro c hc
      rcases List.mem_append.mp hc with hc | hc
      · rw [List.eq_of_mem_replicate hc]
        rfl
      · exact hdigit c hc
    refine ⟨⟨decide (d.coefficient < 0), ['0'],
      some (List.replicate (d.scale.toNat - s.length) '0' ++ s), by simp, by simp, hpad⟩,
      ?_, ?_, ?_, ?_, rfl⟩
    · simp [Numeral.text, Numeral.body, h0, hshort]
    · intro hred
      exact absurd hred.1 (by simp)
    · simp [Numeral.places, hshort]
    · simp [Numeral.magnitude, Numeral.digits, Nat.ofDigitChars_cons, Nat.ofDigitChars_append,
        Nat.ofDigitChars_replicate_zero, hvalue]
  · refine ⟨⟨decide (d.coefficient < 0), s.take (s.length - d.scale.toNat),
      some (s.drop (s.length - d.scale.toNat)), ?_, fun c hc => hdigit c (List.mem_of_mem_take hc),
      fun c hc => hdigit c (List.mem_of_mem_drop hc)⟩, ?_, ?_, ?_, ?_, rfl⟩
    · intro h
      have hlen := congrArg List.length h
      rw [List.length_take, List.length_nil] at hlen
      omega
    · simp [Numeral.text, Numeral.body, h0, hshort]
    · intro hred
      have hhead : s.head? = some '0' := by
        have := hred.2
        rwa [List.head?_take, if_neg (by omega)] at this
      have hlen := hzero hhead
      omega
    · simp only [Numeral.places, Option.getD_some, List.length_drop]
      omega
    · simpa [Numeral.magnitude, Numeral.digits] using hvalue

/-- Reading the text of a decimal gives it back. -/
lemma parse_toText (d : Decimal) : parse d.toText d.precision d.scale = .ok d := by
  obtain ⟨t, htext, hred, hplaces, hmag, hneg⟩ := d.exists_numeral_toText
  rw [← htext, parse_text_eq_ok_iff]
  refine ⟨hred, hplaces.le, ?_, ?_, rfl, rfl⟩
  · rintro ⟨hn, hz⟩
    rw [hneg, decide_eq_true_eq] at hn
    omega
  · rw [Numeral.coefficient, hplaces, Nat.sub_self, pow_zero, Nat.mul_one, hmag, hneg]
    simp only [decide_eq_true_eq]
    split_ifs <;> omega

end toText

section grammar

lemma digitChar_sub {c : Char} (hc : c.isDigit) : (c.toNat - '0'.toNat).digitChar = c := by
  obtain ⟨hlo, hhi⟩ := Char.isDigit_iff_toNat.mp hc
  change 48 ≤ c.toNat at hlo
  change c.toNat ≤ 57 at hhi
  rw [← Char.ofNat_toNat c]
  generalize c.toNat = n at *
  interval_cases n <;> rfl

/-- Digits without a redundant zero are the digits of their number. -/
lemma toDigits_ofDigitChars {cs : List Char} (hne : cs ≠ []) (hdigit : ∀ c ∈ cs, c.isDigit)
    (hred : ¬ (1 < cs.length ∧ cs.head? = some '0')) :
    Nat.toDigits 10 (Nat.ofDigitChars 10 cs 0) = cs := by
  induction cs using List.reverseRecOn with
  | nil => exact absurd rfl hne
  | append_singleton cs c ih =>
    have hc : c.isDigit := hdigit c (by simp)
    obtain ⟨hlo, hhi⟩ := Char.isDigit_iff_toNat.mp hc
    have hlt : c.toNat - '0'.toNat < 10 := by
      change c.toNat ≤ 57 at hhi
      change c.toNat - 48 < 10
      omega
    have hchar := digitChar_sub hc
    rw [Nat.ofDigitChars_append, Nat.ofDigitChars_cons, Nat.ofDigitChars_nil]
    by_cases hnil : cs = []
    · subst hnil
      rw [Nat.ofDigitChars_nil, Nat.mul_zero, Nat.zero_add, Nat.toDigits_of_lt_base hlt, hchar]
      rfl
    · have hcs : Nat.toDigits 10 (Nat.ofDigitChars 10 cs 0) = cs := by
        apply ih hnil fun c hc => hdigit c (List.mem_append_left _ hc)
        intro h
        exact hred ⟨by simp; omega, by rw [List.head?_append_of_ne_nil _ hnil]; exact h.2⟩
      have hpos : Nat.ofDigitChars 10 cs 0 ≠ 0 := by
        intro h
        rw [h, Nat.toDigits_zero] at hcs
        exact hred (by simp [← hcs])
      rw [Nat.toDigits_of_base_le (by norm_num) (by omega)]
      have hdiv : (10 * Nat.ofDigitChars 10 cs 0 + (c.toNat - '0'.toNat)) / 10 =
          Nat.ofDigitChars 10 cs 0 := by omega
      have hmod : (10 * Nat.ofDigitChars 10 cs 0 + (c.toNat - '0'.toNat)) % 10 =
          c.toNat - '0'.toNat := by omega
      rw [hdiv, hmod, hcs, hchar]

/-- A whole number of the type, in its shortest form and followed by a bare point. -/
def Dangling (text : String) (p s : UInt8) : Prop :=
  ∃ (negative : Bool) (n : ℕ), text = (if negative then "-" else "") ++ toString n ++ "." ∧
    (negative → n ≠ 0) ∧ Fits (n * 10 ^ s.toNat) p s

/-- A text that is read has the documented form, and what is read is the number it denotes. -/
def ReadsDocumented (text : String) (p s : UInt8) : Prop :=
  ∀ d, parse text p s = .ok d → d.precision = p ∧ d.scale = s ∧
    ∃ t : Numeral, t.text = text ∧ t.Documented ∧ d.toRat = t.value

/-- A documented numeral ends in a digit. -/
lemma Numeral.Documented.getLast? {t : Numeral} (h : t.Documented) :
    ∃ c, t.text.toList.getLast? = some c ∧ c.isDigit := by
  have hlast : ∀ (l cs : List Char), cs ≠ [] → (∀ c ∈ cs, c.isDigit) →
      ∃ c, (l ++ cs).getLast? = some c ∧ c.isDigit := by
    intro l cs hne hdigit
    refine ⟨cs.getLast hne, ?_, hdigit _ (List.getLast_mem hne)⟩
    rw [List.getLast?_append_of_ne_nil _ hne, List.getLast?_eq_some_getLast hne]
  rw [t.toList_text, body]
  cases hf : t.fraction with
  | none =>
    rw [List.append_nil]
    exact hlast _ _ t.whole_ne t.whole_digits
  | some f =>
    have hne : f ≠ [] := fun hnil => h (by rw [hf, hnil])
    have hdigit := t.fraction_digits
    rw [hf, Option.getD_some] at hdigit
    rw [show t.whole ++ '.' :: f = (t.whole ++ ['.']) ++ f by simp, ← List.append_assoc]
    exact hlast _ _ hne hdigit

/-- The whole number and its bare point, as a numeral. -/
def bare (negative : Bool) (n : ℕ) : Numeral where
  negative
  whole := Nat.toDigits 10 n
  fraction := some []
  whole_ne := Nat.toDigits_ne_nil
  whole_digits _ hc := Nat.isDigit_of_mem_toDigits (by norm_num) le_rfl hc
  fraction_digits := by simp

lemma text_bare (negative : Bool) (n : ℕ) :
    (bare negative n).text = (if negative then "-" else "") ++ toString n ++ "." := by
  apply String.toList_injective
  rw [Numeral.toList_text, Nat.toString_eq_ofList_toDigits]
  cases negative <;> simp [Numeral.body, bare]

lemma parse_bare {negative : Bool} {n : ℕ} {p s : UInt8} (hz : negative → n ≠ 0)
    (hfits : Fits (n * 10 ^ s.toNat) p s) : ∃ d, parse (bare negative n).text p s = .ok d := by
  have hmag : (bare negative n).magnitude = n := by
    simp [Numeral.magnitude, Numeral.digits, bare, Nat.ofDigitChars_ten_toDigits]
  have hcoeff : |(bare negative n).coefficient s.toNat| = |(n * 10 ^ s.toNat : ℤ)| := by
    rw [Numeral.abs_coefficient, hmag]
    simp [Numeral.places, bare]
  obtain ⟨hp, hp', hs, hr⟩ := hfits
  obtain ⟨d, hd⟩ := exists_new_iff.mpr ⟨hp, hp', hs, hcoeff.trans_lt hr⟩
  refine ⟨d, (parse_text_eq_ok_iff _).mpr ⟨?_, Nat.zero_le _, ?_, new_eq_ok_iff.mp hd⟩⟩
  · intro hred
    have hzero := head_toDigits hred.2
    have hlen : 1 < (Nat.toDigits 10 n).length := hred.1
    rw [hzero, Nat.toDigits_zero] at hlen
    exact absurd hlen (by decide)
  · rw [hmag]
    exact fun h => hz h.1 h.2

/-- A text that is read although no digit follows its point is dangling. -/
lemma dangling_of_parse {t : Numeral} {p s : UInt8} {d : Decimal} (hdoc : ¬ t.Documented)
    (h : parse t.text p s = .ok d) : Dangling t.text p s := by
  obtain ⟨hred, -, hsign, hcoeff, rfl, rfl⟩ := (parse_text_eq_ok_iff t).mp h
  have hf : t.fraction = some [] := not_not.mp hdoc
  have hdigits : t.digits = t.whole := by simp [Numeral.digits, hf]
  have hwhole : Nat.toDigits 10 t.magnitude = t.whole := by
    rw [Numeral.magnitude, hdigits]
    exact toDigits_ofDigitChars t.whole_ne t.whole_digits hred
  refine ⟨t.negative, t.magnitude, ?_, fun hn hz => hsign ⟨hn, hz⟩, ?_⟩
  · rw [← text_bare, Numeral.text, Numeral.text, Numeral.body, Numeral.body, hf]
    simp only [bare, hwhole]
  · obtain ⟨hp, hp', hs, hr⟩ := d.fits
    refine ⟨hp, hp', hs, ?_⟩
    rw [hcoeff, t.abs_coefficient] at hr
    simpa [Numeral.places, hf] using hr

lemma Dangling.not_readsDocumented {text : String} {p s : UInt8} (h : Dangling text p s) :
    ¬ ReadsDocumented text p s := by
  intro hreads
  obtain ⟨negative, n, htext, hz, hfits⟩ := h
  rw [← text_bare] at htext
  obtain ⟨d, hd⟩ := parse_bare hz hfits
  obtain ⟨-, -, t, ht, hdoc, -⟩ := hreads d (htext ▸ hd)
  obtain ⟨c, hc, hdigit⟩ := hdoc.getLast?
  rw [ht, htext, text_bare] at hc
  simp only [String.toList_append, List.getLast?_append] at hc
  obtain rfl : '.' = c := Option.some.inj hc
  exact absurd hdigit (by decide)

end grammar

/-- The text of a decimal is read as that decimal. What is read has the documented form and value
exactly when the text is not a whole number of the type followed by a bare point. -/
theorem toText_roundtrip_and_grammar (d : Decimal) (text : String) (p s : UInt8) :
    parse d.toText d.precision d.scale = .ok d ∧
      (ReadsDocumented text p s ↔ ¬ Dangling text p s) := by
  refine ⟨parse_toText d, ?_, ?_⟩
  · exact fun hreads hdangling => hdangling.not_readsDocumented hreads
  · intro hdangling d hd
    obtain ⟨t, rfl⟩ := exists_numeral hd
    obtain ⟨-, hplaces, -, hcoeff, rfl, rfl⟩ := (parse_text_eq_ok_iff t).mp hd
    refine ⟨rfl, rfl, t, rfl, ?_, toRat_of_coefficient hplaces hcoeff⟩
    by_contra hdoc
    exact hdangling (dangling_of_parse hdoc hd)

/-- `1.` is read as one. -/
theorem parse_accepts_bare_point : ¬ ReadsDocumented "1." 5 2 := by
  apply Dangling.not_readsDocumented
  exact ⟨false, 1, by decide, by decide, by decide, by decide, by decide, by decide⟩

end CarolinaDB.Decimal
