import CarolinaDB.CanonFields

/-! Integers as canonical decimal text: the writer and the strict reader. An integer is read from
its own text and no other, unless it is beyond the range of the reader's accumulator. -/
namespace CarolinaDB

section Digits

/-- The decimal digits of `n`, at most `fuel` of them. -/
def decimalDigits : ℕ → ℕ → Bytes
  | 0, _ => []
  | fuel+1, n =>
    if n < 10 then [0x30 + UInt8.ofNat n]
    else decimalDigits fuel (n / 10) ++ [0x30 + UInt8.ofNat (n % 10)]

def decimal (n : ℕ) : String := String.ofList ((decimalDigits (n + 1) n).map asciiChar)

lemma digit_facts {d : ℕ} (hd : d < 10) : (0x30 + UInt8.ofNat d - 0x30).toNat = d ∧
    0x30 + UInt8.ofNat d < 0x80 ∧ Parser.isAsciiDigit (0x30 + UInt8.ofNat d) ∧
    (0x30 + UInt8.ofNat d = 0x30 → d = 0) ∧ 0x30 + UInt8.ofNat d ≠ 0x2d := by
  revert d
  decide

lemma mem_decimalDigits {fuel n : ℕ} {c : UInt8} (h : c ∈ decimalDigits fuel n) :
    ∃ d < 10, c = 0x30 + UInt8.ofNat d := by
  induction fuel generalizing n with
  | zero => simp [decimalDigits] at h
  | succ fuel ih =>
    rw [decimalDigits] at h
    split_ifs at h with hn
    · exact ⟨n, hn, by simpa using h⟩
    · rw [List.mem_append, List.mem_singleton] at h
      rcases h with h | rfl
      · exact ih h
      · exact ⟨n % 10, by omega, rfl⟩

lemma utf8_decimal (n : ℕ) : utf8 (decimal n) = decimalDigits (n + 1) n := by
  rw [decimal, utf8_asciiChars]
  intro c hc
  obtain ⟨d, hd, rfl⟩ := mem_decimalDigits hc
  exact (digit_facts hd).2.1

lemma length_decimalDigits {fuel n k : ℕ} (h : n < 10^(k+1)) :
    (decimalDigits fuel n).length ≤ k + 1 := by
  induction fuel generalizing n k with
  | zero => simp [decimalDigits]
  | succ fuel ih =>
    rw [decimalDigits]
    split_ifs with hn
    · simp
    · cases k with
      | zero => omega
      | succ k =>
        have hdiv : n / 10 < 10^(k+1) := by
          rw [Nat.div_lt_iff_lt_mul (by omega)]
          calc n < 10^(k+1+1) := h
            _ = 10^(k+1) * 10 := pow_succ 10 (k+1)
        have := ih hdiv
        simp
        omega

lemma head_decimalDigits {fuel n : ℕ} (hn : n < fuel) : ∃ d cs, d < 10 ∧ (d = 0 → n = 0) ∧
    decimalDigits fuel n = (0x30 + UInt8.ofNat d) :: cs := by
  induction fuel generalizing n with
  | zero => omega
  | succ fuel ih =>
    rw [decimalDigits]
    split_ifs with h
    · exact ⟨n, [], h, id, rfl⟩
    · obtain ⟨d, cs, hd, hd0, he⟩ := ih (n := n / 10) (by omega)
      exact ⟨d, _, hd, fun h0 => by have := hd0 h0; omega, by rw [he]; rfl⟩

def i128Max : ℕ := 2^127 - 1

/-- Read digits after the value `v`, staying in the range of the accumulator. -/
def parseDigits : ℕ → Bytes → Option ℕ
  | v, [] => some v
  | v, c :: cs =>
    if v * 10 + (c - 0x30).toNat ≤ i128Max then parseDigits (v * 10 + (c - 0x30).toNat) cs else none

lemma parseDigits_append (v : ℕ) (cs : Bytes) (c : UInt8) :
    parseDigits v (cs ++ [c]) = (parseDigits v cs).bind fun w => parseDigits w [c] := by
  induction cs generalizing v with
  | nil => rfl
  | cons b cs ih =>
    rw [List.cons_append, parseDigits, parseDigits]
    split_ifs
    · exact ih _
    · rfl

lemma parseDigits_decimalDigits {fuel n : ℕ} (hn : n < fuel) (hmax : n ≤ i128Max) :
    parseDigits 0 (decimalDigits fuel n) = some n := by
  induction fuel generalizing n with
  | zero => omega
  | succ fuel ih =>
    rw [decimalDigits]
    split_ifs with h
    · have hd := (digit_facts h).1
      rw [parseDigits, hd, if_pos (by omega)]
      simp [parseDigits]
    · have hd := (digit_facts (Nat.mod_lt n (by omega : 0 < 10))).1
      have hsplit : n / 10 * 10 + n % 10 = n := by omega
      rw [parseDigits_append, ih (by omega) (by omega), Option.bind_some, parseDigits, hd, hsplit,
        if_pos hmax]
      rfl

lemma digit_of_isAsciiDigit {c : UInt8} (h : Parser.isAsciiDigit c) :
    (c - 0x30).toNat < 10 ∧ 0x30 + UInt8.ofNat (c - 0x30).toNat = c := by
  unfold Parser.isAsciiDigit at h
  have hlt : c - 0x30 < 10 := by grind
  rw [UInt8.ofNat_toNat]
  exact ⟨UInt8.lt_iff_toNat_lt.mp hlt, by grind⟩

lemma parseDigits_singleton {v w : ℕ} {c : UInt8} (h : parseDigits v [c] = some w) :
    w = v * 10 + (c - 0x30).toNat := by
  rw [parseDigits] at h
  split_ifs at h
  simpa [parseDigits, eq_comm] using h

/-- More fuel than digits writes the same digits. -/
lemma decimalDigits_fuel {fuel fuel' n : ℕ} (h : n < fuel) (h' : n < fuel') :
    decimalDigits fuel n = decimalDigits fuel' n := by
  induction fuel generalizing fuel' n with
  | zero => omega
  | succ fuel ih =>
    cases fuel' with
    | zero => omega
    | succ fuel' =>
      rw [decimalDigits, decimalDigits]
      split_ifs with hn
      · rfl
      · rw [ih (show n / 10 < fuel by omega) (show n / 10 < fuel' by omega)]

lemma decimalDigits_of_parseDigits {cs : Bytes} {n : ℕ} (hne : cs ≠ [])
    (hdigits : ∀ c ∈ cs, Parser.isAsciiDigit c) (hlead : 1 < cs.length → cs.head? ≠ some 0x30)
    (h : parseDigits 0 cs = some n) : decimalDigits (n + 1) n = cs ∧ (1 < cs.length → 10 ≤ n) := by
  induction cs using List.reverseRecOn generalizing n with
  | nil => exact absurd rfl hne
  | append_singleton cs c ih =>
    obtain ⟨hd, hc⟩ := digit_of_isAsciiDigit (hdigits c (by simp))
    rw [parseDigits_append] at h
    obtain ⟨v, hv, hn⟩ := Option.bind_eq_some_iff.mp h
    have hn' := parseDigits_singleton hn
    cases cs with
    | nil =>
      cases hv
      rw [zero_mul, zero_add] at hn'
      rw [hn', decimalDigits, if_pos hd, hc]
      simp
    | cons b cs =>
      have hb : b ≠ 0x30 := by simpa using hlead (by simp)
      have hpos : 0 < v := by
        obtain ⟨hbd, hbc⟩ := digit_of_isAsciiDigit (hdigits b (by simp))
        obtain ⟨hdig, hlong⟩ := ih (by simp) (fun c hc => hdigits c (by simp at hc ⊢; tauto))
          (fun _ => by simpa using hb) hv
        by_contra hzero
        have hv0 : v = 0 := by omega
        subst hv0
        rw [decimalDigits, if_pos (by omega)] at hdig
        exact hb (by simpa using (List.cons.inj hdig).1.symm)
      obtain ⟨hdig, -⟩ := ih (by simp) (fun c hc => hdigits c (by simp at hc ⊢; tauto))
        (fun _ => by simpa using hb) hv
      have hten : ¬ n < 10 := by omega
      have hdiv : n / 10 = v := by omega
      have hmod : n % 10 = (c - 0x30).toNat := by omega
      rw [decimalDigits, if_neg hten, hdiv, hmod, hc,
        decimalDigits_fuel (show v < n by omega) (show v < v + 1 by omega), hdig]
      exact ⟨rfl, fun _ => by omega⟩

lemma parseDigits_le {v w : ℕ} {cs : Bytes} (hv : v ≤ i128Max) (h : parseDigits v cs = some w) :
    w ≤ i128Max := by
  induction cs generalizing v with
  | nil =>
    rw [parseDigits, Option.some.injEq] at h
    exact h ▸ hv
  | cons c cs ih =>
    rw [parseDigits] at h
    split_ifs at h with hle
    exact ih hle h

/-- What the checks of an integer's digits let through. -/
structure DigitsOf (ds : Bytes) (v : ℕ) : Prop where
  digits : ¬ (ds = [] ∨ ¬ ds.all Parser.isAsciiDigit)
  lead : ¬ (1 < ds.length ∧ ds.head? = some 0x30)
  short : ¬ 39 < ds.length
  parse : parseDigits 0 ds = some v

lemma digitsOf_iff {ds : Bytes} {v : ℕ} :
    DigitsOf ds v ↔ ds = decimalDigits (v + 1) v ∧ v ≤ i128Max := by
  constructor
  · intro h
    have hd := h.digits
    rw [not_or, not_not] at hd
    obtain ⟨hdig, -⟩ := decimalDigits_of_parseDigits hd.1 (List.all_eq_true.mp hd.2)
      (fun hlen hz => h.lead ⟨hlen, hz⟩) h.parse
    exact ⟨hdig.symm, parseDigits_le (Nat.zero_le _) h.parse⟩
  · rintro ⟨hds, hmax⟩
    subst hds
    have hlt : v < 10 ^ (38 + 1) := hmax.trans_lt (by norm_num [i128Max])
    obtain ⟨d, cs, hd, hd0, he⟩ := head_decimalDigits (Nat.lt_succ_self v)
    refine ⟨?_, ?_, not_lt.mpr (length_decimalDigits hlt),
      parseDigits_decimalDigits (Nat.lt_succ_self v) hmax⟩
    · rw [not_or, not_not, List.all_eq_true]
      refine ⟨by simp [he], fun c hc => ?_⟩
      obtain ⟨d, hd, rfl⟩ := mem_decimalDigits hc
      exact (digit_facts hd).2.2.1
    · rintro ⟨hlen, hhead⟩
      rw [he, List.head?_cons, Option.some.injEq] at hhead
      obtain rfl := hd0 ((digit_facts hd).2.2.2.1 hhead)
      simp [decimalDigits] at hlen

/-- The digits of a number do not begin with a minus. -/
lemma head_decimalDigits_ne (v : ℕ) : (decimalDigits (v + 1) v).head? ≠ some 0x2d := by
  obtain ⟨d, cs, hd, -, he⟩ := head_decimalDigits (Nat.lt_succ_self v)
  rw [he, List.head?_cons, Ne, Option.some.injEq]
  exact (digit_facts hd).2.2.2.2

lemma decimalDigits_eq_zero {v : ℕ} : decimalDigits (v + 1) v = [0x30] ↔ v = 0 := by
  constructor
  · intro h
    obtain ⟨d, cs, hd, hd0, he⟩ := head_decimalDigits (Nat.lt_succ_self v)
    rw [he] at h
    exact hd0 ((digit_facts hd).2.2.2.1 (List.cons.inj h).1)
  · rintro rfl
    rfl

end Digits

section Text

/-- A canonical decimal integer: optional minus, no plus, no leading zeros, not minus zero. -/
def parseCanonicalInt (s : String) : CoreResult ℤ :=
  if utf8 s = [] then .error (.new .nonCanonicalEncoding "empty integer")
  else
    let neg := (utf8 s).head? = some 0x2d
    let digits := if neg then (utf8 s).tail else utf8 s
    if digits = [] ∨ ¬ digits.all Parser.isAsciiDigit then
      .error (.new .nonCanonicalEncoding ("non-canonical integer `" ++ s ++ "`"))
    else if 1 < digits.length ∧ digits.head? = some 0x30 then
      .error (.new .nonCanonicalEncoding ("redundant leading zero in `" ++ s ++ "`"))
    else if neg ∧ digits = [0x30] then
      .error (.new .nonCanonicalEncoding "signed zero is forbidden")
    else if 39 < digits.length then .error (.new .numericOverflow "integer too large")
    else
      match parseDigits 0 digits with
      | none => .error (.new .numericOverflow "integer out of i128 range")
      | some v => .ok (if neg then -v else v)

/-- The text of an integer. -/
def CanonValue.int (x : ℤ) : CanonValue :=
  .str (if x < 0 then "-" ++ decimal x.natAbs else decimal x.natAbs)

lemma utf8_append (s t : String) : utf8 (s ++ t) = utf8 s ++ utf8 t := by
  simp [utf8_eq]

lemma utf8_int {x : ℤ} {s : String} : CanonValue.int x = .str s ↔
    utf8 s = (if x < 0 then [0x2d] else []) ++ decimalDigits (x.natAbs + 1) x.natAbs := by
  have hminus : utf8 "-" = [0x2d] := by decide
  rw [CanonValue.int, CanonValue.str.injEq, ← utf8_injective.eq_iff, eq_comm]
  split_ifs
  · rw [utf8_append, utf8_decimal, hminus]
  · rw [utf8_decimal, List.nil_append]

/-- What the checks of the digits behind the sign let through. -/
lemma parseCanonicalInt_eq_ok {s : String} {x : ℤ} {digits : Bytes} (hempty : utf8 s ≠ [])
    (hdigits : (if (utf8 s).head? = some 0x2d then (utf8 s).tail else utf8 s) = digits) :
    parseCanonicalInt s = .ok x ↔ ∃ v : ℕ, DigitsOf digits v ∧
      ¬ ((utf8 s).head? = some 0x2d ∧ digits = [0x30]) ∧
        x = if (utf8 s).head? = some 0x2d then -(v : ℤ) else v := by
  obtain ⟨signed, hsigned⟩ : ∃ signed : ℕ → ℤ, ∀ v : ℕ,
      (if (utf8 s).head? = some 0x2d then -(v : ℤ) else v) = signed v := ⟨_, fun _ => rfl⟩
  simp only [parseCanonicalInt, if_neg hempty, hdigits, hsigned]
  constructor
  · intro h
    split_ifs at h with hbad hlead hzero hlong
    cases hv : parseDigits 0 digits with
    | none => simp [hv] at h
    | some v =>
      rw [hv] at h
      exact ⟨v, ⟨hbad, hlead, hlong, hv⟩, hzero, (Except.ok.inj h).symm⟩
  · rintro ⟨v, h, hzero, hx⟩
    rw [if_neg h.digits, if_neg h.lead, if_neg hzero, if_neg h.short, h.parse, hx]

/-- An integer is read from a text exactly when the text is its own and it is in range. -/
theorem parseCanonicalInt_eq_ok_iff {s : String} {x : ℤ} :
    parseCanonicalInt s = .ok x ↔ CanonValue.int x = .str s ∧ x.natAbs ≤ i128Max := by
  rw [utf8_int]
  by_cases hempty : utf8 s = []
  · obtain ⟨d, cs, -, -, he⟩ := head_decimalDigits (Nat.lt_succ_self x.natAbs)
    simp [parseCanonicalInt, hempty, he]
  rw [parseCanonicalInt_eq_ok hempty rfl]
  by_cases hneg : (utf8 s).head? = some 0x2d
  · obtain ⟨ds, hds⟩ : ∃ ds, utf8 s = 0x2d :: ds := ⟨_, List.eq_cons_of_mem_head? hneg⟩
    rw [if_pos hneg, hds, List.tail_cons]
    simp only [List.head?_cons, if_true, true_and]
    constructor
    · rintro ⟨v, hv, hzero, hx⟩
      obtain ⟨rfl, hmax⟩ := digitsOf_iff.mp hv
      rw [decimalDigits_eq_zero] at hzero
      subst hx
      rw [if_pos (by omega), Int.natAbs_neg, Int.natAbs_natCast]
      exact ⟨rfl, hmax⟩
    · rintro ⟨htext, hmax⟩
      split_ifs at htext with hx
      · rw [List.singleton_append] at htext
        obtain ⟨-, rfl⟩ := List.cons.inj htext
        refine ⟨x.natAbs, digitsOf_iff.mpr ⟨rfl, hmax⟩, ?_, by omega⟩
        rw [decimalDigits_eq_zero]
        omega
      · exact absurd (congrArg List.head? htext.symm) (head_decimalDigits_ne _)
  · rw [if_neg hneg]
    simp only [hneg, if_false, false_and, not_false_eq_true, true_and]
    constructor
    · rintro ⟨v, hv, hx⟩
      obtain ⟨htext, hmax⟩ := digitsOf_iff.mp hv
      subst hx
      rw [if_neg (by omega), Int.natAbs_natCast]
      exact ⟨htext, hmax⟩
    · rintro ⟨htext, hmax⟩
      split_ifs at htext with hx
      · rw [htext] at hneg
        exact absurd rfl hneg
      · exact ⟨x.natAbs, digitsOf_iff.mpr ⟨htext, hmax⟩, by omega⟩

lemma parseCanonicalInt_decimal {n : ℕ} (h : n < 2^64) : parseCanonicalInt (decimal n) = .ok n := by
  refine parseCanonicalInt_eq_ok_iff.mpr ⟨?_, ?_⟩
  · rw [CanonValue.int, if_neg (by omega), Int.natAbs_natCast]
  · have hmax : (2 : ℕ) ^ 64 ≤ i128Max := by norm_num [i128Max]
    omega

/-- An integer that is not negative is read from its decimal text only. -/
lemma decimal_of_parseCanonicalInt {s : String} {n : ℤ} (h : parseCanonicalInt s = .ok n)
    (hn : 0 ≤ n) : decimal n.toNat = s := by
  obtain ⟨htext, -⟩ := parseCanonicalInt_eq_ok_iff.mp h
  rw [CanonValue.int, if_neg (by omega), CanonValue.str.injEq] at htext
  rw [← htext, ← Int.natAbs_of_nonneg hn]
  rfl

lemma map_decimalDigits (fuel n : ℕ) (cs : List Char) :
    (decimalDigits fuel n).map asciiChar ++ cs = Nat.toDigitsCore 10 fuel n cs := by
  have hdigit : ∀ d < 10, asciiChar (0x30 + UInt8.ofNat d) = Nat.digitChar d := by decide
  induction fuel generalizing n cs with
  | zero => rfl
  | succ fuel ih =>
    have hlast := hdigit (n % 10) (Nat.mod_lt n (by omega))
    rw [decimalDigits, Nat.toDigitsCore]
    split_ifs with hlt hzero hzero
    · rw [Nat.mod_eq_of_lt hlt] at hlast
      simp [Nat.mod_eq_of_lt hlt, hlast]
    · omega
    · omega
    · rw [← ih (n / 10)]
      simp [hlast]

lemma int_eq_toString (v : ℤ) : CanonValue.int v = .str (toString v) := by
  have hdecimal (n : ℕ) : decimal n = n.repr := by
    have hmap := map_decimalDigits (n + 1) n []
    rw [List.append_nil] at hmap
    rw [decimal, hmap]
    rfl
  rw [CanonValue.int, CanonValue.str.injEq]
  cases v with
  | ofNat n =>
    rw [if_neg (by simp)]
    exact hdecimal n
  | negSucc n =>
    rw [if_pos (Int.negSucc_lt_zero n)]
    exact congrArg ("-" ++ ·) (hdecimal (n + 1))

/-- Every `i128` is read from its decimal rendering but the least one: the digits are added up
before the sign is applied. What is read from any text is rendered as that text. -/
theorem parseCanonicalInt_toString (v : ℤ) (hlo : -2 ^ 127 ≤ v) (hhi : v < 2 ^ 127) :
    (parseCanonicalInt (toString v) = .ok v ↔ v ≠ -2 ^ 127) ∧
      ∀ (s : String) (w : ℤ), parseCanonicalInt s = .ok w → s = toString w := by
  constructor
  · rw [parseCanonicalInt_eq_ok_iff, int_eq_toString, i128Max]
    constructor
    · rintro ⟨-, hmax⟩ rfl
      omega
    · intro hne
      exact ⟨rfl, by omega⟩
  · intro s w h
    obtain ⟨htext, -⟩ := parseCanonicalInt_eq_ok_iff.mp h
    rw [int_eq_toString, CanonValue.str.injEq] at htext
    exact htext.symm

theorem parseCanonicalInt_toString_greatest :
    parseCanonicalInt (toString (2 ^ 127 - 1 : ℤ)) = .ok (2 ^ 127 - 1) :=
  (parseCanonicalInt_toString (2 ^ 127 - 1) (by norm_num) (by norm_num)).1.mpr (by norm_num)

theorem least_i128_refused : parseCanonicalInt (toString (-2 ^ 127 : ℤ)) =
    .error (.new .numericOverflow "integer out of i128 range") := by
  decide +kernel

end Text

end CarolinaDB
