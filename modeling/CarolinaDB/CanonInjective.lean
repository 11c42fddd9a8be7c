import CarolinaDB.CanonLimits

/-! The text of a canonical value determines the value and where it ends, also beyond what a
decoder accepts: no limit and no rule for the names of fields is needed. -/
namespace CarolinaDB

open CanonValue

lemma writeString_append_inj {s t : String} {x y : Bytes}
    (h : writeString s ++ x = writeString t ++ y) : s = t ∧ x = y := by
  simp only [writeString, List.cons_append, List.cons.injEq, true_and, List.append_assoc,
    List.nil_append] at h
  -- a parser whose limit lets both strings through reads the same thing on both sides
  let p : Parser := ⟨{ Limits.v1 with maxScalarBytes := max (escape s).length (escape t).length }, 0⟩
  have hs := (parseString_escape p x s (s, x)).mpr ⟨by simp only [p]; omega, rfl⟩
  have ht := (parseString_escape p y t (t, y)).mpr ⟨by simp only [p]; omega, rfl⟩
  rw [h, ht, Except.ok.injEq, Prod.mk.injEq] at hs
  exact ⟨hs.1.symm, hs.2.symm⟩

/-- The first byte of a value. -/
def leadByte : CanonValue → UInt8
  | .null => 0x6e
  | .bool true => 0x74
  | .bool false => 0x66
  | .str _ => 0x22
  | .array _ => 0x5b
  | .object _ => 0x7b

lemma head_encode_append (v : CanonValue) (x : Bytes) :
    (v.encode ++ x).head? = some (leadByte v) := by
  cases v with
  | bool b => cases b <;> rfl
  | null => rfl
  | _ => rw [CanonValue.encode]; rfl

lemma close_ne_encodeItems (first : Bool) (v : CanonValue) (vs : List CanonValue) {x y : Bytes} :
    encodeItems first [] ++ 0x5d :: x ≠ encodeItems first (v :: vs) ++ 0x5d :: y := by
  intro h
  obtain ⟨c, cs, hc, hclose, -⟩ := encode_head v
  cases first <;> simp_all [encodeItems]

lemma close_ne_encodeFields (first : Bool) (f : String × CanonValue)
    (fs : List (String × CanonValue)) {x y : Bytes} :
    encodeFields first [] ++ 0x7d :: x ≠ encodeFields first (f :: fs) ++ 0x7d :: y := by
  obtain ⟨k, v⟩ := f
  intro h
  cases first <;> simp [encodeFields, writeString] at h

mutual

theorem encode_append_inj (v w : CanonValue) {x y : Bytes}
    (h : v.encode ++ x = w.encode ++ y) : v = w ∧ x = y := by
  have hlead : leadByte v = leadByte w := by
    have := congrArg List.head? h
    rwa [head_encode_append, head_encode_append, Option.some.injEq] at this
  cases v with
  | null =>
    cases w with
    | null => exact ⟨rfl, List.append_cancel_left h⟩
    | bool b => cases b <;> cases hlead
    | _ => cases hlead
  | bool b =>
    cases w with
    | bool c =>
      obtain rfl : b = c := by cases b <;> cases c <;> first | rfl | cases hlead
      exact ⟨rfl, List.append_cancel_left h⟩
    | _ => cases b <;> cases hlead
  | str s =>
    cases w with
    | str t =>
      rw [CanonValue.encode, CanonValue.encode] at h
      obtain ⟨rfl, hx⟩ := writeString_append_inj h
      exact ⟨rfl, hx⟩
    | bool b => cases b <;> cases hlead
    | _ => cases hlead
  | array vs =>
    cases w with
    | array ws =>
      simp only [CanonValue.encode, List.cons_append, List.cons.injEq, true_and, List.append_assoc,
        List.nil_append] at h
      obtain ⟨hvs, hx⟩ := encodeItems_append_inj true vs ws h
      exact ⟨by rw [hvs], hx⟩
    | bool b => cases b <;> cases hlead
    | _ => cases hlead
  | object fs =>
    cases w with
    | object gs =>
      simp only [CanonValue.encode, List.cons_append, List.cons.injEq, true_and, List.append_assoc,
        List.nil_append] at h
      obtain ⟨hfs, hx⟩ := encodeFields_append_inj true fs gs h
      exact ⟨by rw [hfs], hx⟩
    | bool b => cases b <;> cases hlead
    | _ => cases hlead

theorem encodeItems_append_inj (first : Bool) (vs ws : List CanonValue) {x y : Bytes}
    (h : encodeItems first vs ++ 0x5d :: x = encodeItems first ws ++ 0x5d :: y) :
    vs = ws ∧ x = y := by
  cases vs with
  | nil =>
    cases ws with
    | nil => simpa [encodeItems] using h
    | cons w ws => exact absurd h (close_ne_encodeItems first w ws)
  | cons v vs =>
    cases ws with
    | nil => exact absurd h.symm (close_ne_encodeItems first v vs)
    | cons w ws =>
      simp only [encodeItems, List.append_assoc, List.append_cancel_left_eq] at h
      obtain ⟨rfl, hrest⟩ := encode_append_inj v w h
      obtain ⟨rfl, hx⟩ := encodeItems_append_inj false vs ws hrest
      exact ⟨rfl, hx⟩

theorem encodeFields_append_inj (first : Bool) (fs gs : List (String × CanonValue)) {x y : Bytes}
    (h : encodeFields first fs ++ 0x7d :: x = encodeFields first gs ++ 0x7d :: y) :
    fs = gs ∧ x = y := by
  cases fs with
  | nil =>
    cases gs with
    | nil => simpa [encodeFields] using h
    | cons g gs => exact absurd h (close_ne_encodeFields first g gs)
  | cons f fs =>
    cases gs with
    | nil => exact absurd h.symm (close_ne_encodeFields first f fs)
    | cons g gs =>
      obtain ⟨k, v⟩ := f
      obtain ⟨l, w⟩ := g
      simp only [encodeFields, List.append_assoc, List.append_cancel_left_eq, List.cons_append] at h
      obtain ⟨rfl, hvalue⟩ := writeString_append_inj h
      rw [List.cons.injEq] at hvalue
      obtain ⟨rfl, hrest⟩ := encode_append_inj v w hvalue.2
      obtain ⟨rfl, hx⟩ := encodeFields_append_inj false fs gs hrest
      exact ⟨rfl, hx⟩

end

theorem encode_injective : Function.Injective CanonValue.encode := by
  intro v w h
  exact (encode_append_inj v w (congrArg (· ++ []) h)).1

end CarolinaDB
