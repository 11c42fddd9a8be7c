import CarolinaDB.Canonical

/-!
# Lengths of encodings

Bounds on the length of an encoded object from the lengths of its fields.
-/
namespace CarolinaDB

namespace CanonValue

/-- What a field adds to an object: its name in quotes, two separators and its value. -/
def fieldLen (f : String × CanonValue) : ℕ := (writeString f.1).length + 2 + f.2.encode.length

lemma length_encodeFields_le (first : Bool) (fs : List (String × CanonValue)) :
    (encodeFields first fs).length ≤ (fs.map fieldLen).sum := by
  induction fs generalizing first with
  | nil => simp [encodeFields]
  | cons f fs ih =>
    obtain ⟨k, v⟩ := f
    have := ih false
    cases first <;> simp [encodeFields, fieldLen] <;> omega

lemma sum_insertField_le (k : String) (v : CanonValue) (fs : List (String × CanonValue)) :
    ((insertField k v fs).map fieldLen).sum ≤ fieldLen (k, v) + (fs.map fieldLen).sum := by
  induction fs with
  | nil => simp [insertField]
  | cons f fs ih =>
    obtain ⟨l, w⟩ := f
    rw [insertField]
    split_ifs
    · simp
    · simp
    · simp only [List.map_cons, List.sum_cons]
      omega

/-- An object is no longer than its fields, two separators for each, and its braces. -/
lemma length_encode_build_le (fs : List (String × CanonValue)) :
    (build fs).encode.length ≤ 2 + (fs.map fieldLen).sum := by
  have hof : ((ofFields fs).map fieldLen).sum ≤ (fs.map fieldLen).sum := by
    induction fs with
    | nil => rfl
    | cons f fs ih =>
      obtain ⟨k, v⟩ := f
      have := sum_insertField_le k v (ofFields fs)
      rw [ofFields, List.map_cons, List.sum_cons]
      omega
  have hfields := length_encodeFields_le true (ofFields fs)
  simp only [build, encode, List.length_cons, List.length_append, List.length_nil]
  omega

/-- The names of an object and their separators take `n` bytes. -/
lemma length_build_le {fs : List (String × CanonValue)} {n : ℕ} (names : List String)
    (hn : fs.map Prod.fst = names) (h : (names.map fun k => (writeString k).length + 2).sum ≤ n) :
    (build fs).encode.length ≤ 2 + n + (fs.map fun f => f.2.encode.length).sum := by
  have hsplit : (fs.map fieldLen).sum = ((fs.map Prod.fst).map fun k => (writeString k).length + 2).sum +
      (fs.map fun f => f.2.encode.length).sum := by
    rw [List.map_map, ← List.sum_map_add]
    rfl
  have hbuild := length_encode_build_le fs
  rw [hsplit, hn] at hbuild
  omega

section Ascending

/-- Names in the order the encoder writes them. -/
def Ascending (fs : List (String × CanonValue)) : Prop :=
  (fs.map Prod.fst).Pairwise fun a b => utf8 a < utf8 b

lemma Ascending.of_names {fs : List (String × CanonValue)} (names : List String)
    (hn : fs.map Prod.fst = names) (h : names.Pairwise fun a b => utf8 a < utf8 b) :
    Ascending fs := by
  rw [Ascending, hn]
  exact h

lemma build_of_ascending {fs : List (String × CanonValue)} (h : Ascending fs) :
    build fs = .object fs := by
  suffices hof : ofFields fs = fs by rw [build, hof]
  induction fs with
  | nil => rfl
  | cons f fs ih =>
    obtain ⟨k, v⟩ := f
    rw [Ascending, List.map_cons, List.pairwise_cons] at h
    rw [ofFields, ih h.2]
    cases fs with
    | nil => rfl
    | cons g fs =>
      obtain ⟨l, w⟩ := g
      have hlt : utf8 k < utf8 l := h.1 l (by simp)
      have hne : k ≠ l := by
        rintro rfl
        exact lt_irrefl _ hlt
      rw [insertField, if_neg hne, if_pos hlt]

/-- The exact length of an object whose fields are given in order. -/
lemma length_encode_build {f : String × CanonValue} {fs : List (String × CanonValue)}
    (h : Ascending (f :: fs)) :
    (build (f :: fs)).encode.length = 1 + fieldLen f + (fs.map fieldLen).sum := by
  have hrest : ∀ fs : List (String × CanonValue),
      (encodeFields false fs).length = (fs.map fieldLen).sum := by
    intro fs
    induction fs with
    | nil => rfl
    | cons g fs ih =>
      obtain ⟨k, v⟩ := g
      simp [encodeFields, fieldLen, ih]
      omega
  obtain ⟨k, v⟩ := f
  rw [build_of_ascending h]
  simp [encode, encodeFields, fieldLen, hrest fs]
  omega

/-- An array takes its brackets and a comma between two items. -/
lemma length_encode_array (vs : List CanonValue) :
    (array vs).encode.length = 2 + (vs.length - 1) + (vs.map fun v => v.encode.length).sum := by
  have hrest : ∀ vs : List CanonValue,
      (encodeItems false vs).length = vs.length + (vs.map fun v => v.encode.length).sum := by
    intro vs
    induction vs with
    | nil => rfl
    | cons v vs ih =>
      simp [encodeItems, ih]
      omega
  cases vs with
  | nil => rfl
  | cons v vs =>
    simp [encode, encodeItems, hrest vs]
    omega

/-- When an object with these few names is within the limits. -/
lemma fits_build {limits : Limits} {depth : ℕ} {fs : List (String × CanonValue)}
    (names : List String) (hn : fs.map Prod.fst = names)
    (h : names.Pairwise fun a b => utf8 a < utf8 b)
    (hk : names.length ≤ limits.maxCollectionLen ∧
      ∀ k ∈ names, isAscii k ∧ fitsScalar limits k) :
    (build fs).fits limits depth ↔
      depth + 1 ≤ limits.maxDepth ∧ ∀ f ∈ fs, f.2.fits limits (depth + 1) := by
  rw [build_of_ascending (.of_names names hn h)]
  have hlen : fs.length ≤ limits.maxCollectionLen := by
    rw [← List.length_map (f := Prod.fst), hn]
    exact hk.1
  have hname : ∀ f ∈ fs, isAscii f.1 ∧ fitsScalar limits f.1 := by
    intro f hf
    exact hk.2 f.1 (hn ▸ List.mem_map_of_mem hf)
  simp only [fits, Bool.and_eq_true, decide_eq_true_eq, fitsFields_iff, hlen, true_and]
  refine and_congr_right fun _ => forall₂_congr fun f hf => ?_
  exact and_iff_right (hname f hf)

end Ascending

section Congruence

/-- The same name, and a value of the same length. -/
def SameLen (f g : String × CanonValue) : Prop := f.1 = g.1 ∧ f.2.encode.length = g.2.encode.length

lemma forall₂_insertField {k : String} {v w : CanonValue} {fs gs : List (String × CanonValue)}
    (hv : v.encode.length = w.encode.length) (h : List.Forall₂ SameLen fs gs) :
    List.Forall₂ SameLen (insertField k v fs) (insertField k w gs) := by
  induction h with
  | nil => exact List.Forall₂.cons ⟨rfl, hv⟩ List.Forall₂.nil
  | @cons f g fs gs hfg hrest ih =>
    obtain ⟨l, x⟩ := f
    obtain ⟨m, y⟩ := g
    obtain ⟨rfl, hxy⟩ : l = m ∧ x.encode.length = y.encode.length := hfg
    simp only [insertField]
    split_ifs
    · exact List.Forall₂.cons ⟨rfl, hv⟩ hrest
    · exact List.Forall₂.cons ⟨rfl, hv⟩ (List.Forall₂.cons ⟨rfl, hxy⟩ hrest)
    · exact List.Forall₂.cons ⟨rfl, hxy⟩ ih

/-- The length of an object depends on the lengths of its values only. -/
lemma length_encode_build_congr {fs gs : List (String × CanonValue)}
    (h : List.Forall₂ SameLen fs gs) : (build fs).encode.length = (build gs).encode.length := by
  have hof : List.Forall₂ SameLen (ofFields fs) (ofFields gs) := by
    induction h with
    | nil => exact List.Forall₂.nil
    | @cons f g fs gs hfg _ ih =>
      obtain ⟨k, v⟩ := f
      obtain ⟨l, w⟩ := g
      obtain ⟨rfl, hvw⟩ : k = l ∧ v.encode.length = w.encode.length := hfg
      exact forall₂_insertField hvw ih
  have hfields (first : Bool) {fs gs : List (String × CanonValue)}
      (h : List.Forall₂ SameLen fs gs) :
      (encodeFields first fs).length = (encodeFields first gs).length := by
    induction h generalizing first with
    | nil => rfl
    | @cons f g fs gs hfg _ ih =>
      obtain ⟨k, v⟩ := f
      obtain ⟨l, w⟩ := g
      obtain ⟨rfl, hvw⟩ : k = l ∧ v.encode.length = w.encode.length := hfg
      simp [encodeFields, hvw, ih]
  simp [build, encode, hfields true hof]

end Congruence

lemma length_encode_bytes (b : Bytes) : (bytes b).encode.length = 2 * b.length + 2 := by
  simp [bytes, encode, writeString, length_escape_hexEncode]

lemma length_encode_hash (h : Hash256) : (toCanon h).encode.length = 66 := by
  have hlen : h.bytes.val.length = 32 := h.bytes.property
  exact (length_encode_bytes h.bytes.val).trans (by rw [hlen])

lemma escapeByte_digit {c : UInt8} (h : Parser.isAsciiDigit c) : escapeByte c = [c] := by
  unfold Parser.isAsciiDigit at h
  unfold escapeByte
  grind

lemma escape_decimal (n : ℕ) : escape (decimal n) = decimalDigits (n+1) n := by
  rw [escape_eq, utf8_decimal]
  refine (List.flatMap_congr fun c hc => ?_).trans (List.flatMap_singleton' _)
  obtain ⟨d, hd, rfl⟩ := mem_decimalDigits hc
  exact escapeByte_digit (digit_facts hd).2.2.1

lemma length_encode_uint (n : UInt64) : (uint n).encode.length ≤ 22 := by
  have hdigits : (decimalDigits (n.toNat + 1) n.toNat).length ≤ 20 :=
    length_decimalDigits (n.toNat_lt.trans (by norm_num))
  simp only [uint, encode, writeString, escape_decimal, List.length_cons, List.length_append,
    List.length_nil]
  omega

end CanonValue

end CarolinaDB
