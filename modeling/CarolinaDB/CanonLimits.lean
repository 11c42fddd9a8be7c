import CarolinaDB.CanonText

/-!
# What the decoder accepts

A value decodes from its own encoding exactly if it is within the decoder's
limits: depth, lengths of collections and of escaped strings, ASCII keys, and the
length of the whole.
-/
namespace CarolinaDB

namespace CanonValue

mutual

/-- Keys strictly increase in every object, as in the map the source keeps. -/
def sorted : CanonValue → Bool
  | .null => true
  | .bool _ => true
  | .str _ => true
  | .array items => sortedItems items
  | .object fields => sortedFields none fields

def sortedItems : List CanonValue → Bool
  | [] => true
  | v :: vs => v.sorted && sortedItems vs

def sortedFields (last : Option String) : List (String × CanonValue) → Bool
  | [] => true
  | (k, v) :: fs => last.all (fun prev => utf8 prev < utf8 k) && (v.sorted && sortedFields (some k) fs)

end

/-- A string is within the scalar limit once escaped. -/
def fitsScalar (limits : Limits) (s : String) : Bool := (escape s).length ≤ limits.maxScalarBytes + 8

mutual

/-- Below `depth` levels of nesting, the value is within the limits. -/
def fits (limits : Limits) (depth : ℕ) : CanonValue → Bool
  | .null => true
  | .bool _ => true
  | .str s => fitsScalar limits s
  | .array items => depth + 1 ≤ limits.maxDepth && (items.length ≤ limits.maxCollectionLen &&
      fitsItems limits (depth + 1) items)
  | .object fields => depth + 1 ≤ limits.maxDepth && (fields.length ≤ limits.maxCollectionLen &&
      fitsFields limits (depth + 1) fields)

def fitsItems (limits : Limits) (depth : ℕ) : List CanonValue → Bool
  | [] => true
  | v :: vs => v.fits limits depth && fitsItems limits depth vs

def fitsFields (limits : Limits) (depth : ℕ) : List (String × CanonValue) → Bool
  | [] => true
  | (k, v) :: fs => (isAscii k && fitsScalar limits k) &&
      (v.fits limits depth && fitsFields limits depth fs)

end

end CanonValue

open CanonValue

section Lists

lemma encodeItems_false (v : CanonValue) (vs : List CanonValue) :
    encodeItems false (v :: vs) = 0x2c :: encodeItems true (v :: vs) := by
  simp [encodeItems]

lemma encodeFields_false (f : String × CanonValue) (fs : List (String × CanonValue)) :
    encodeFields false (f :: fs) = 0x2c :: encodeFields true (f :: fs) := by
  simp [encodeFields]

/-- The first byte of a value tells which kind it is; it never closes a collection. -/
lemma encode_head (v : CanonValue) : ∃ c cs, v.encode = c :: cs ∧ c ≠ 0x5d ∧ c ≠ 0x7d := by
  cases v with
  | null => exact ⟨0x6e, _, rfl, by decide, by decide⟩
  | bool b =>
    cases b with
    | true => exact ⟨0x74, _, rfl, by decide, by decide⟩
    | false => exact ⟨0x66, _, rfl, by decide, by decide⟩
  | str s => exact ⟨0x22, _, by rw [CanonValue.encode, writeString], by decide, by decide⟩
  | array items => exact ⟨0x5b, _, by rw [CanonValue.encode], by decide, by decide⟩
  | object fields => exact ⟨0x7b, _, by rw [CanonValue.encode], by decide, by decide⟩

lemma encode_length_pos (v : CanonValue) : 0 < v.encode.length := by
  obtain ⟨c, cs, h, -⟩ := encode_head v
  simp [h]

end Lists

section Parse
variable (p : Parser) (fuel depth : ℕ) (src rest : Bytes)

lemma expectLit_append (lit : Bytes) : p.expectLit lit (lit ++ rest) = .ok rest := by
  simp [Parser.expectLit]

lemma parseValue_null :
    p.parseValue (fuel + 1) depth (utf8 "null" ++ rest) = .ok (.null, rest) := by
  obtain ⟨src, hsrc⟩ : ∃ src, utf8 "null" ++ rest = 0x6e :: src := ⟨_, rfl⟩
  have he := expectLit_append p rest (utf8 "null")
  rw [hsrc] at he ⊢
  rw [Parser.parseValue.eq_def]
  change (p.expectLit (utf8 "null") (0x6e :: src)).map _ = _
  rw [he]
  rfl

lemma parseValue_true :
    p.parseValue (fuel + 1) depth (utf8 "true" ++ rest) = .ok (.bool true, rest) := by
  obtain ⟨src, hsrc⟩ : ∃ src, utf8 "true" ++ rest = 0x74 :: src := ⟨_, rfl⟩
  have he := expectLit_append p rest (utf8 "true")
  rw [hsrc] at he ⊢
  rw [Parser.parseValue.eq_def]
  change (p.expectLit (utf8 "true") (0x74 :: src)).map _ = _
  rw [he]
  rfl

lemma parseValue_false :
    p.parseValue (fuel + 1) depth (utf8 "false" ++ rest) = .ok (.bool false, rest) := by
  obtain ⟨src, hsrc⟩ : ∃ src, utf8 "false" ++ rest = 0x66 :: src := ⟨_, rfl⟩
  have he := expectLit_append p rest (utf8 "false")
  rw [hsrc] at he ⊢
  rw [Parser.parseValue.eq_def]
  change (p.expectLit (utf8 "false") (0x66 :: src)).map _ = _
  rw [he]
  rfl

lemma parseValue_quote : p.parseValue (fuel + 1) depth (0x22 :: src) =
    (p.parseString src).map fun (s, rest) => (.str s, rest) := by
  rw [Parser.parseValue.eq_def]
  rfl

lemma parseValue_bracket : p.parseValue (fuel + 1) depth (0x5b :: src) =
    if p.limits.maxDepth < depth + 1 then
      .error (.new .resourceLimit "nesting depth exceeds limit")
    else if src.head? = some 0x5d then .ok (.array [], src.tail)
    else (p.parseItems fuel (depth + 1) 0 src).map fun (items, rest) => (.array items, rest) := by
  rw [Parser.parseValue.eq_def]
  rfl

lemma parseValue_brace : p.parseValue (fuel + 1) depth (0x7b :: src) =
    if p.limits.maxDepth < depth + 1 then
      .error (.new .resourceLimit "nesting depth exceeds limit")
    else if src.head? = some 0x7d then .ok (.object [], src.tail)
    else (p.parseFields fuel (depth + 1) 0 none src).map
      fun (fields, rest) => (.object fields, rest) := by
  rw [Parser.parseValue.eq_def]
  rfl

lemma head_encodeItems (v : CanonValue) (vs : List CanonValue) :
    (encodeItems true (v :: vs) ++ rest).head? ≠ some 0x5d := by
  obtain ⟨c, cs, h, hc, -⟩ := encode_head v
  simp [encodeItems, h, hc]

lemma encodeFields_cons (f : String × CanonValue) (fs : List (String × CanonValue)) :
    encodeFields true (f :: fs) ++ rest =
      0x22 :: (escape f.1 ++ 0x22 :: 0x3a :: (f.2.encode ++ (encodeFields false fs ++ rest))) := by
  simp [encodeFields, writeString]

lemma encodeItems_lt_of_cons {v w : CanonValue} {ws : List CanonValue} {fuel : ℕ}
    (h : (encodeItems true (v :: w :: ws)).length < fuel + 1) :
    (encodeItems true (w :: ws)).length < fuel := by
  rw [encodeItems, encodeItems_false] at h
  have := encode_length_pos v
  simp at h
  omega

lemma encodeFields_lt_of_cons {f g : String × CanonValue} {fs : List (String × CanonValue)}
    {fuel : ℕ} (h : (encodeFields true (f :: g :: fs)).length < fuel + 1) :
    (encodeFields true (g :: fs)).length < fuel := by
  rw [encodeFields, encodeFields_false] at h
  simp [writeString] at h
  omega

mutual

/-- A value is read back from its encoding, whatever follows it, exactly if it is within limits. -/
theorem parseValue_encode (v : CanonValue) (hv : v.sorted) (fuel depth : ℕ) (rest : Bytes)
    (hfuel : v.encode.length ≤ fuel) (x : CanonValue × Bytes) :
    p.parseValue fuel depth (v.encode ++ rest) = .ok x ↔
      v.fits p.limits depth ∧ x = (v, rest) := by
  obtain ⟨fuel, rfl⟩ : ∃ n, fuel = n + 1 := ⟨fuel - 1, by have := encode_length_pos v; omega⟩
  cases v with
  | null =>
    rw [CanonValue.encode, parseValue_null]
    simp [fits, eq_comm]
  | bool b =>
    cases b with
    | true =>
      rw [CanonValue.encode, parseValue_true]
      simp [fits, eq_comm]
    | false =>
      rw [CanonValue.encode, parseValue_false]
      simp [fits, eq_comm]
  | str s =>
    rw [CanonValue.encode, writeString, List.cons_append, List.append_assoc, parseValue_quote,
      CoreResult.map_eq_ok_iff]
    simp only [List.singleton_append, parseString_escape, fits, fitsScalar, decide_eq_true_eq]
    constructor
    · rintro ⟨y, ⟨hle, rfl⟩, rfl⟩
      exact ⟨hle, rfl⟩
    · rintro ⟨hle, rfl⟩
      exact ⟨_, ⟨hle, rfl⟩, rfl⟩
  | array items =>
    rw [CanonValue.encode, List.cons_append, List.append_assoc, List.singleton_append,
      parseValue_bracket]
    by_cases hd : p.limits.maxDepth < depth + 1
    · simp [hd, fits, not_le.mpr hd]
    rw [if_neg hd]
    have hd' := not_lt.mp hd
    cases items with
    | nil => simp [encodeItems, fits, fitsItems, hd', eq_comm]
    | cons v vs =>
      rw [if_neg (head_encodeItems _ v vs), CoreResult.map_eq_ok_iff]
      have hlen : (encodeItems true (v :: vs)).length < fuel := by
        simp [CanonValue.encode] at hfuel
        omega
      have hsorted : sortedItems (v :: vs) := by simpa [CanonValue.sorted] using hv
      have ih := parseItems_encode (v :: vs) (by simp) hsorted fuel (depth + 1) 0 rest hlen
      simp only [ih, fits, hd', decide_true, Bool.true_and, Bool.and_eq_true, decide_eq_true_eq]
      constructor
      · rintro ⟨y, ⟨hf, hn, rfl⟩, rfl⟩
        exact ⟨⟨by omega, hf⟩, rfl⟩
      · rintro ⟨⟨hn, hf⟩, rfl⟩
        exact ⟨_, ⟨hf, by omega, rfl⟩, rfl⟩
  | object fields =>
    rw [CanonValue.encode, List.cons_append, List.append_assoc, List.singleton_append,
      parseValue_brace]
    by_cases hd : p.limits.maxDepth < depth + 1
    · simp [hd, fits, not_le.mpr hd]
    rw [if_neg hd]
    have hd' := not_lt.mp hd
    cases fields with
    | nil => simp [encodeFields, fits, fitsFields, hd', eq_comm]
    | cons f fs =>
      rw [if_neg (by simp [encodeFields_cons]), CoreResult.map_eq_ok_iff]
      have hlen : (encodeFields true (f :: fs)).length < fuel := by
        simp [CanonValue.encode] at hfuel
        omega
      have hsorted : sortedFields none (f :: fs) := by simpa [CanonValue.sorted] using hv
      have ih := parseFields_encode (f :: fs) (by simp) none hsorted fuel (depth + 1) 0 rest hlen
      simp only [ih, fits, hd', decide_true, Bool.true_and, Bool.and_eq_true, decide_eq_true_eq]
      constructor
      · rintro ⟨y, ⟨hf, hn, rfl⟩, rfl⟩
        exact ⟨⟨by omega, hf⟩, rfl⟩
      · rintro ⟨⟨hn, hf⟩, rfl⟩
        exact ⟨_, ⟨hf, by omega, rfl⟩, rfl⟩

theorem parseItems_encode (l : List CanonValue) (hne : l ≠ []) (hl : sortedItems l)
    (fuel depth n : ℕ) (rest : Bytes) (hfuel : (encodeItems true l).length < fuel)
    (x : List CanonValue × Bytes) :
    p.parseItems fuel depth n (encodeItems true l ++ 0x5d :: rest) = .ok x ↔
      fitsItems p.limits depth l ∧ n + l.length ≤ p.limits.maxCollectionLen ∧ x = (l, rest) := by
  obtain ⟨fuel, rfl⟩ : ∃ m, fuel = m + 1 := ⟨fuel - 1, by omega⟩
  cases l with
  | nil => exact absurd rfl hne
  | cons v vs =>
    simp only [sortedItems, Bool.and_eq_true] at hl
    have hlen : v.encode.length ≤ fuel := by
      simp [encodeItems] at hfuel
      omega
    have ihv := parseValue_encode v hl.1 fuel depth (encodeItems false vs ++ 0x5d :: rest) hlen
    rw [Parser.parseItems, CoreResult.bind_eq_ok_iff]
    simp only [encodeItems, if_true, List.nil_append, List.append_assoc, ihv, fitsItems,
      Bool.and_eq_true, List.length_cons]
    constructor
    · rintro ⟨y, ⟨hf, rfl⟩, h⟩
      by_cases hn : p.limits.maxCollectionLen < n + 1
      · simp [hn] at h
      cases vs with
      | nil =>
        simp only [encodeItems, List.nil_append, hn, if_false, List.head?_cons, List.tail_cons] at h
        exact ⟨⟨hf, rfl⟩, by simpa using not_lt.mp hn, by simpa using h.symm⟩
      | cons w ws =>
        have ih := parseItems_encode (w :: ws) (by simp) hl.2 fuel depth (n + 1) rest
          (encodeItems_lt_of_cons hfuel)
        simp only [encodeItems_false, List.cons_append, hn, if_false, List.head?_cons, if_true,
          List.tail_cons, CoreResult.map_eq_ok_iff, ih] at h
        obtain ⟨y, ⟨hfs, hlen', rfl⟩, rfl⟩ := h
        exact ⟨⟨hf, hfs⟩, by simp at hlen' ⊢; omega, rfl⟩
    · rintro ⟨⟨hf, hfs⟩, hlen', rfl⟩
      refine ⟨_, ⟨hf, rfl⟩, ?_⟩
      have hn : ¬ p.limits.maxCollectionLen < n + 1 := by omega
      cases vs with
      | nil => simp [encodeItems, hn]
      | cons w ws =>
        have ih := parseItems_encode (w :: ws) (by simp) hl.2 fuel depth (n + 1) rest
          (encodeItems_lt_of_cons hfuel)
        simp only [encodeItems_false, List.cons_append, hn, if_false, List.head?_cons, if_true,
          List.tail_cons, CoreResult.map_eq_ok_iff, ih]
        exact ⟨_, ⟨hfs, by simp at hlen' ⊢; omega, rfl⟩, rfl⟩

theorem parseFields_encode (l : List (String × CanonValue)) (hne : l ≠ []) (last : Option String)
    (hl : sortedFields last l) (fuel depth n : ℕ) (rest : Bytes)
    (hfuel : (encodeFields true l).length < fuel) (x : List (String × CanonValue) × Bytes) :
    p.parseFields fuel depth n last (encodeFields true l ++ 0x7d :: rest) = .ok x ↔
      fitsFields p.limits depth l ∧ n + l.length ≤ p.limits.maxCollectionLen ∧ x = (l, rest) := by
  obtain ⟨fuel, rfl⟩ : ∃ m, fuel = m + 1 := ⟨fuel - 1, by omega⟩
  cases l with
  | nil => exact absurd rfl hne
  | cons f fs =>
    obtain ⟨k, v⟩ := f
    simp only [sortedFields, Bool.and_eq_true] at hl
    have hlen : v.encode.length ≤ fuel := by
      simp [encodeFields] at hfuel
      omega
    have ihv := parseValue_encode v hl.2.1 fuel depth (encodeFields false fs ++ 0x7d :: rest) hlen
    have hlast : ¬ last.any (fun prev => ¬ utf8 prev < utf8 k) := by
      cases last with
      | none => simp
      | some prev => simpa using hl.1
    rw [encodeFields_cons, Parser.parseFields]
    simp only [List.head?_cons, ne_eq, not_true_eq_false, if_false, List.tail_cons,
      CoreResult.bind_eq_ok_iff, parseString_escape, fitsFields, fitsScalar, Bool.and_eq_true,
      decide_eq_true_eq, List.length_cons]
    constructor
    · rintro ⟨y, ⟨hk, rfl⟩, h⟩
      by_cases hascii : isAscii k
      swap
      · simp [hascii, Parser.fail] at h
      rw [if_neg (not_not.mpr hascii), if_neg hlast, if_neg (by simp),
        CoreResult.bind_eq_ok_iff] at h
      simp only [List.tail_cons, ihv] at h
      obtain ⟨y, ⟨hf, rfl⟩, h⟩ := h
      by_cases hn : p.limits.maxCollectionLen < n + 1
      · simp [hn] at h
      cases fs with
      | nil =>
        simp only [encodeFields, List.nil_append, hn, if_false, List.head?_cons, List.tail_cons] at h
        exact ⟨⟨⟨hascii, hk⟩, hf, rfl⟩, by simpa using not_lt.mp hn, by simpa using h.symm⟩
      | cons g gs =>
        have ih := parseFields_encode (g :: gs) (by simp) (some k) hl.2.2 fuel depth (n + 1) rest
          (encodeFields_lt_of_cons hfuel)
        simp only [encodeFields_false, List.cons_append, hn, if_false, List.head?_cons, if_true,
          List.tail_cons, CoreResult.map_eq_ok_iff, ih] at h
        obtain ⟨y, ⟨hfs, hlen', rfl⟩, rfl⟩ := h
        exact ⟨⟨⟨hascii, hk⟩, hf, hfs⟩, by simp at hlen' ⊢; omega, rfl⟩
    · rintro ⟨⟨⟨hascii, hk⟩, hf, hfs⟩, hlen', rfl⟩
      refine ⟨_, ⟨hk, rfl⟩, ?_⟩
      have hn : ¬ p.limits.maxCollectionLen < n + 1 := by omega
      rw [if_neg (not_not.mpr hascii), if_neg hlast, if_neg (by simp),
        CoreResult.bind_eq_ok_iff]
      simp only [List.tail_cons, ihv]
      refine ⟨_, ⟨hf, rfl⟩, ?_⟩
      cases fs with
      | nil => simp [encodeFields, hn]
      | cons g gs =>
        have ih := parseFields_encode (g :: gs) (by simp) (some k) hl.2.2 fuel depth (n + 1) rest
          (encodeFields_lt_of_cons hfuel)
        simp only [encodeFields_false, List.cons_append, hn, if_false, List.head?_cons, if_true,
          List.tail_cons, CoreResult.map_eq_ok_iff, ih]
        exact ⟨_, ⟨hfs, by simp at hlen' ⊢; omega, rfl⟩, rfl⟩

end

end Parse

/-- The value read back from an encoding, and when it is. -/
theorem decode_encode {v : CanonValue} (hv : v.sorted) (limits : Limits) (x : CanonValue) :
    CanonValue.decode v.encode limits = .ok x ↔
      v.encode.length ≤ limits.maxPayloadBytes ∧ v.fits limits 0 ∧ x = v := by
  rw [CanonValue.decode]
  by_cases hlen : limits.maxPayloadBytes < v.encode.length
  · simp [hlen]
  have hparse := parseValue_encode ⟨limits, v.encode.length⟩ v hv (v.encode.length + 1) 0 []
    (Nat.le_succ _)
  rw [List.append_nil] at hparse
  rw [if_neg hlen, CoreResult.bind_eq_ok_iff]
  simp only [hparse]
  constructor
  · rintro ⟨y, ⟨hf, rfl⟩, h⟩
    simp only [ne_eq, not_true_eq_false, if_false, Except.ok.injEq] at h
    exact ⟨not_lt.mp hlen, hf, h.symm⟩
  · rintro ⟨-, hf, rfl⟩
    exact ⟨_, ⟨hf, rfl⟩, by simp⟩

end CarolinaDB
