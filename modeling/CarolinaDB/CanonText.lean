import CarolinaDB.Canon

/-! Strings of the canonical form: what the encoder writes for a string, the
decoder reads back, within the limit on the length of the escaped text. -/
namespace CarolinaDB

lemma utf8_eq (s : String) : utf8 s = s.toList.flatMap String.utf8EncodeChar := by
  have h : s.toByteArray = s.toList.utf8Encode := by
    conv_lhs => rw [← String.ofList_toList (s := s)]
    exact String.toByteArray_ofList
  simp [utf8, h, List.utf8Encode]

lemma utf8_ofList (l : List Char) : utf8 (String.ofList l) = l.flatMap String.utf8EncodeChar := by
  rw [utf8_eq, String.toList_ofList]

lemma utf8_injective : Function.Injective utf8 := by
  intro s t h
  rw [← String.toByteArray_inj]
  exact ByteArray.ext (Array.toList_inj.mp h)

@[simp] lemma fromUtf8_utf8 (s : String) : fromUtf8 (utf8 s) = some s := by
  have h : (⟨(utf8 s).toArray⟩ : ByteArray) = s.toByteArray := by simp [utf8]
  rw [fromUtf8, h, String.fromUTF8?]
  simp [s.isValidUTF8, String.fromUTF8]

/-- The character a byte below 0x80 stands for. -/
def asciiChar (b : UInt8) : Char := Char.ofNat b.toNat

lemma utf8EncodeChar_asciiChar {b : UInt8} (hb : b < 0x80) :
    String.utf8EncodeChar (asciiChar b) = [b] := by
  have hlt : b.toNat < 128 := hb
  have hval : (asciiChar b).val.toNat = b.toNat := by
    have hv : b.toNat.isValidChar := Or.inl (by omega)
    rw [asciiChar, Char.ofNat, dif_pos hv]
    rfl
  rw [String.utf8EncodeChar]
  simp only [hval]
  rw [if_pos (by omega), UInt8.ofNat_toNat]

lemma utf8_asciiChars {bs : Bytes} (h : ∀ b ∈ bs, b < 0x80) :
    utf8 (String.ofList (bs.map asciiChar)) = bs := by
  rw [utf8_ofList]
  induction bs with
  | nil => rfl
  | cons b bs ih =>
    rw [List.map_cons, List.flatMap_cons, utf8EncodeChar_asciiChar (h b List.mem_cons_self),
      ih fun b' hb' => h b' (List.mem_cons_of_mem _ hb')]
    rfl

lemma fromUtf8_ascii {bs : Bytes} (h : ∀ b ∈ bs, b < 0x80) :
    fromUtf8 bs = some (String.ofList (bs.map asciiChar)) := by
  conv_lhs => rw [← utf8_asciiChars h]
  exact fromUtf8_utf8 _

section Hex

lemma nibble_hexDigit {n : UInt8} (h : n < 16) : nibble (hexDigit n) = some n := by
  unfold nibble hexDigit
  grind

lemma hexDigit_lt {n : UInt8} (h : n < 16) : hexDigit n < 0x80 := by
  unfold hexDigit
  grind

lemma div_sixteen_lt (b : UInt8) : b / 16 < 16 := by
  grind

lemma mod_sixteen_lt (b : UInt8) : b % 16 < 16 := by
  grind

lemma sixteen_mul_add (b : UInt8) : b / 16 * 16 + b % 16 = b := by
  grind

end Hex

section Escape

/-- How one byte is written. The bytes of a character beyond ASCII are never escaped. -/
def escapeByte (b : UInt8) : Bytes :=
  if b = 0x22 then [0x5c, 0x22]
  else if b = 0x5c then [0x5c, 0x5c]
  else if b < 0x20 then [0x5c, 0x75, 0x30, 0x30, hexDigit (b / 16), hexDigit (b % 16)]
  else [b]

lemma escapeByte_of_ge {b : UInt8} (h : 0x80 ≤ b) : escapeByte b = [b] := by
  unfold escapeByte
  grind

lemma le_ofNat_of_le {n : ℕ} (h : 0x80 ≤ n) (hn : n < 256) : (0x80 : UInt8) ≤ UInt8.ofNat n := by
  rw [UInt8.le_iff_toNat_le, UInt8.toNat_ofNat_of_lt' hn]
  exact h

lemma escapeChar_eq (c : Char) : escapeChar c = (String.utf8EncodeChar c).flatMap escapeByte := by
  by_cases hc : c.val.toNat ≤ 127
  · -- one byte: both sides test the same value
    have hb : c.val.toNat < 256 := by omega
    have henc : String.utf8EncodeChar c = [UInt8.ofNat c.val.toNat] := by
      rw [String.utf8EncodeChar]
      exact if_pos hc
    have h (n : ℕ) (hn : n < 256) : UInt8.ofNat c.val.toNat = UInt8.ofNat n ↔ c.val.toNat = n := by
      rw [← UInt8.toNat_inj, UInt8.toNat_ofNat_of_lt' hb, UInt8.toNat_ofNat_of_lt' hn]
    have h' (n : ℕ) (hn : n < 256) : c.val = UInt32.ofNat n ↔ c.val.toNat = n := by
      rw [← UInt32.toNat_inj, UInt32.toNat_ofNat_of_lt' (by simp [UInt32.size]; omega)]
    have hlt : UInt8.ofNat c.val.toNat < 0x20 ↔ c.val < 0x20 := by
      rw [UInt8.lt_iff_toNat_lt, UInt8.toNat_ofNat_of_lt' hb, UInt32.lt_iff_toNat_lt]
      rfl
    have hdiv : (c.val / 16).toUInt8 = UInt8.ofNat c.val.toNat / 16 := by
      rw [← UInt8.toNat_inj]
      simp only [UInt32.toNat_toUInt8, UInt32.toNat_div, UInt8.toNat_div,
        UInt8.toNat_ofNat_of_lt' hb]
      exact Nat.mod_eq_of_lt (Nat.lt_of_le_of_lt (Nat.div_le_self _ _) hb)
    have hmod : (c.val % 16).toUInt8 = UInt8.ofNat c.val.toNat % 16 := by
      rw [← UInt8.toNat_inj]
      simp only [UInt32.toNat_toUInt8, UInt32.toNat_mod, UInt8.toNat_mod,
        UInt8.toNat_ofNat_of_lt' hb]
      exact Nat.mod_eq_of_lt (Nat.lt_of_le_of_lt (Nat.mod_le _ _) hb)
    rw [escapeChar, henc, List.flatMap_singleton, escapeByte, hdiv, hmod]
    have h22 := (h 0x22 (by omega)).trans (h' 0x22 (by omega)).symm
    have h5c := (h 0x5c (by omega)).trans (h' 0x5c (by omega)).symm
    exact ite_congr (propext h22.symm) (fun _ => rfl) fun _ =>
      ite_congr (propext h5c.symm) (fun _ => rfl) fun _ =>
        ite_congr (propext hlt.symm) (fun _ => rfl) fun _ => rfl
  · have hval (n : ℕ) (hn : n ≤ 127) : c.val ≠ UInt32.ofNat n := by
      rintro h
      rw [h, UInt32.toNat_ofNat_of_lt' (by simp [UInt32.size]; omega)] at hc
      exact hc hn
    have hlt : ¬ c.val < 0x20 := by
      rw [UInt32.lt_iff_toNat_lt]
      exact fun h => hc ((show c.val.toNat < 32 from h).le.trans (by omega))
    have hge : ∀ b ∈ String.utf8EncodeChar c, 0x80 ≤ b := by
      rw [String.utf8EncodeChar]
      simp only [if_neg hc]
      intro b hb
      split_ifs at hb <;> simp only [List.mem_cons, List.not_mem_nil, or_false] at hb <;>
        rcases hb with rfl | rfl | rfl | rfl <;> exact le_ofNat_of_le (by omega) (by omega)
    have h22 : c.val ≠ 0x22 := hval 0x22 (by omega)
    have h5c : c.val ≠ 0x5c := hval 0x5c (by omega)
    rw [escapeChar, if_neg h22, if_neg h5c, if_neg hlt]
    generalize String.utf8EncodeChar c = bs at hge ⊢
    induction bs with
    | nil => rfl
    | cons b bs ih =>
      rw [List.flatMap_cons, escapeByte_of_ge (hge b List.mem_cons_self),
        ← ih fun b' hb' => hge b' (List.mem_cons_of_mem _ hb')]
      rfl

lemma escape_eq (s : String) : escape s = (utf8 s).flatMap escapeByte := by
  rw [escape, utf8_eq, List.flatMap_assoc]
  exact congrArg (List.flatMap · s.toList) (funext escapeChar_eq)

end Escape

section Parse
variable (p : Parser) (used : ℕ) (rest : Bytes)

lemma map_push_eq_ok {b : UInt8} {r : CoreResult (Bytes × Bytes)} {x : Bytes × Bytes} :
    (r.map fun (cs, rest) => (b :: cs, rest)) = .ok x ↔
      ∃ cs, r = .ok (cs, x.2) ∧ x.1 = b :: cs := by
  rw [CoreResult.map_eq_ok_iff]
  constructor
  · rintro ⟨⟨cs, rest⟩, hr, rfl⟩
    exact ⟨cs, hr, rfl⟩
  · rintro ⟨cs, hr, hx⟩
    exact ⟨(cs, x.2), hr, Prod.ext hx.symm rfl⟩

/-- One escaped byte is read back if the scan has not passed the scalar limit. -/
lemma parseChars_escapeByte (b : UInt8) (src : Bytes) (x : Bytes × Bytes) :
    p.parseChars used (escapeByte b ++ src) = .ok x ↔ used ≤ p.limits.maxScalarBytes + 8 ∧
      ∃ cs, p.parseChars (used + (escapeByte b).length) src = .ok (cs, x.2) ∧ x.1 = b :: cs := by
  by_cases hused : p.limits.maxScalarBytes + 8 < used
  · have hne : escapeByte b ≠ [] := by
      unfold escapeByte
      split_ifs <;> simp
    obtain ⟨c, cs, hc⟩ := List.exists_cons_of_ne_nil hne
    rw [hc, List.cons_append, Parser.parseChars.eq_def]
    simp [hused]
  have hle : used ≤ p.limits.maxScalarBytes + 8 := not_lt.mp hused
  unfold escapeByte
  split_ifs with h22 h5c h20
  · subst h22
    rw [List.cons_append, Parser.parseChars.eq_def]
    simp [hused, hle, map_push_eq_ok]
  · subst h5c
    rw [List.cons_append, Parser.parseChars.eq_def]
    simp [hused, hle, map_push_eq_ok]
  · have h1 := hexDigit_lt (div_sixteen_lt b)
    have h0 := hexDigit_lt (mod_sixteen_lt b)
    have hutf : fromUtf8 [0x30, 0x30, hexDigit (b / 16), hexDigit (b % 16)] ≠ none := by
      rw [fromUtf8_ascii]
      · simp
      · intro c hc
        simp only [List.mem_cons, List.not_mem_nil, or_false] at hc
        rcases hc with rfl | rfl | rfl | rfl
        · decide
        · decide
        · exact h1
        · exact h0
    have hd : b / 16 < 2 := by
      grind
    have hn : nibble 0x30 = some 0 := by decide
    rw [List.cons_append, Parser.parseChars.eq_def]
    simp [hused, hle, map_push_eq_ok, hutf, hn, nibble_hexDigit (div_sixteen_lt b),
      nibble_hexDigit (mod_sixteen_lt b), hd, sixteen_mul_add]
  · rw [List.cons_append, Parser.parseChars.eq_def]
    simp [hused, hle, map_push_eq_ok, h22, h5c, h20]

/-- The scan reaches the closing quote exactly if it is within the limit there. -/
lemma parseChars_escape (bs : Bytes) (x : Bytes × Bytes) :
    p.parseChars used (bs.flatMap escapeByte ++ 0x22 :: rest) = .ok x ↔
      used + (bs.flatMap escapeByte).length ≤ p.limits.maxScalarBytes + 8 ∧ x = (bs, rest) := by
  induction bs generalizing used x with
  | nil =>
    rw [List.flatMap_nil, List.nil_append, Parser.parseChars.eq_def]
    by_cases hused : p.limits.maxScalarBytes + 8 < used
    · simp [hused]
    · simp [hused, not_lt.mp hused, eq_comm]
  | cons b bs ih =>
    rw [List.flatMap_cons, List.append_assoc, parseChars_escapeByte]
    simp only [ih, List.length_append, Prod.mk.injEq]
    constructor
    · rintro ⟨-, cs, ⟨hle, rfl, hr⟩, hx⟩
      exact ⟨by omega, Prod.ext hx hr⟩
    · rintro ⟨hle, rfl⟩
      exact ⟨by omega, bs, ⟨by omega, rfl, rfl⟩, rfl⟩

lemma parseString_escape (s : String) (x : String × Bytes) :
    p.parseString (escape s ++ 0x22 :: rest) = .ok x ↔
      (escape s).length ≤ p.limits.maxScalarBytes + 8 ∧ x = (s, rest) := by
  have h := parseChars_escape p 0 rest (utf8 s)
  rw [Nat.zero_add, ← escape_eq] at h
  rw [Parser.parseString]
  cases hr : p.parseChars 0 (escape s ++ 0x22 :: rest) with
  | error e =>
    have hlim : ¬ (escape s).length ≤ p.limits.maxScalarBytes + 8 := by
      intro hle
      have := (h (utf8 s, rest)).mpr ⟨hle, rfl⟩
      rw [hr] at this
      simp at this
    simp [bind, Except.bind, hlim]
  | ok y =>
    obtain ⟨hle, rfl⟩ := (h y).mp hr
    simp [bind, Except.bind, hle, eq_comm]

end Parse

end CarolinaDB
