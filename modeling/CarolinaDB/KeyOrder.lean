import CarolinaDB.Values

/-!
# Keys sort as the values they encode

Element encodings separate: they decide the comparison of two values whatever
follows them. Tuples and options concatenate separating words, so by induction on
the type the key bytes of two values of one type compare as the values do.
-/
namespace CarolinaDB

open Lexicographic

section Elements

lemma separates_bigEndian {n x y : ℕ} (hx : x < 256 ^ n) (hy : y < 256 ^ n) :
    Separates (compare x y) (bigEndian n x) (bigEndian n y) := by
  have h := Separates.of_length (x := bigEndian n x) (y := bigEndian n y) (by simp)
  rwa [lexCmp_bigEndian, Nat.mod_eq_of_lt hx, Nat.mod_eq_of_lt hy] at h

lemma separates_u64 (a b : UInt64) :
    Separates (compare a.toNat b.toNat) (KeyElem.u64 a).write (KeyElem.u64 b).write :=
  (separates_bigEndian a.toNat_lt b.toNat_lt).cons 0x10

lemma separates_i64 (a b : Int64) :
    Separates (compare a.toInt b.toInt) (KeyElem.i64 a).write (KeyElem.i64 b).write := by
  have h := separates_bigEndian (n := 8) (signFlip a.toBitVec).isLt (signFlip b.toBitVec).isLt
  rw [compare_signFlip] at h
  exact h.cons 0x11

lemma separates_bool (a b : Bool) :
    Separates (compare a b) (KeyElem.bool a).write (KeyElem.bool b).write := by
  have h : ∀ a b : Bool, compare a b =
      compare (if a then 1 else 0 : UInt8) (if b then 1 else 0 : UInt8) := by decide
  rw [h]
  exact (Separates.singleton _ _).cons 0x12

lemma separates_id16 (a b : Octets 16) :
    Separates (lexCmp compare a.val b.val) (KeyElem.id16 a).write (KeyElem.id16 b).write :=
  (Separates.of_length (a.2.trans b.2.symm)).cons 0x13

lemma separates_decimal (a b : BitVec 128) :
    Separates (compare a.toInt b.toInt) (KeyElem.decimal a).write (KeyElem.decimal b).write := by
  have h := separates_bigEndian (n := 16) (signFlip a).isLt (signFlip b).isLt
  rw [compare_signFlip] at h
  exact h.cons 0x15

lemma separates_enum (a b : UInt32) :
    Separates (compare a.toNat b.toNat) (KeyElem.enum a).write (KeyElem.enum b).write :=
  (separates_bigEndian (n := 4) a.toNat_lt b.toNat_lt).cons 0x16

/-- How a byte of a byte string is written. -/
abbrev escapeZero (c : UInt8) : Bytes := if c = 0 then [0x00, 0xff] else [c]

lemma separates_of_lt {a b : UInt8} (h : a < b) (x : Bytes) (as bs : Bytes) :
    Separates .lt (x ++ a :: as) (x ++ b :: bs) ∧ Separates .gt (x ++ b :: bs) (x ++ a :: as) := by
  have hlt := Separates.singleton a b
  have hgt := Separates.singleton b a
  rw [compare_lt_iff_lt.mpr h] at hlt
  rw [compare_gt_iff_gt.mpr h] at hgt
  exact ⟨(Separates.refl x).append (hlt.append_right (by simp) as bs),
    (Separates.refl x).append (hgt.append_right (by simp) bs as)⟩

lemma separates_escapeZero (c d : UInt8) :
    Separates (compare c d) (escapeZero c) (escapeZero d) := by
  by_cases hc : c = 0
  · by_cases hd : d = 0
    · subst hc hd
      exact Separates.refl _
    · have hlt : c < d := hc ▸ UInt8.pos_iff_ne_zero.mpr hd
      rw [compare_lt_iff_lt.mpr hlt]
      subst hc
      simpa [escapeZero, hd] using (separates_of_lt hlt [] [0xff] []).1
  · by_cases hd : d = 0
    · have hlt : d < c := hd ▸ UInt8.pos_iff_ne_zero.mpr hc
      rw [compare_gt_iff_gt.mpr hlt]
      subst hd
      simpa [escapeZero, hc] using (separates_of_lt hlt [] [0xff] []).2
    · simpa [escapeZero, hc, hd] using Separates.singleton c d

/-- The terminator comes before everything a byte string can go on with. -/
lemma separates_terminator (c : UInt8) (as bs : Bytes) :
    Separates .lt (0x00 :: 0x00 :: as) (escapeZero c ++ bs) ∧
      Separates .gt (escapeZero c ++ bs) (0x00 :: 0x00 :: as) := by
  by_cases hc : c = 0
  · subst hc
    exact separates_of_lt (a := 0x00) (b := 0xff) (by decide) [0x00] as bs
  · have hlt : 0 < c := UInt8.pos_iff_ne_zero.mpr hc
    simpa [escapeZero, hc] using separates_of_lt hlt [] (0x00 :: as) bs

lemma separates_escaped (a b : Bytes) : Separates (lexCmp compare a b)
    (a.flatMap escapeZero ++ [0x00, 0x00]) (b.flatMap escapeZero ++ [0x00, 0x00]) := by
  induction a generalizing b with
  | nil =>
    cases b with
    | nil => exact Separates.refl _
    | cons d b => simpa [lexCmp] using (separates_terminator d [] _).1
  | cons c a ih =>
    cases b with
    | nil => simpa [lexCmp] using (separates_terminator c [] _).2
    | cons d b =>
      rw [List.flatMap_cons, List.flatMap_cons, List.append_assoc, List.append_assoc]
      exact (separates_escapeZero c d).append (ih b)

lemma separates_bytes (a b : Bytes) :
    Separates (lexCmp compare a b) (KeyElem.bytes a).write (KeyElem.bytes b).write :=
  (separates_escaped a b).cons 0x14

end Elements

namespace Lang

/-- The key of `v` is `k`, behind anything written before. -/
def Value.WritesKey (v : Value) (k : Bytes) : Prop := ∀ w, v.writeKey w = .ok (w ++ k)

/-- The keys of two values decide their comparison, and equal means identical. -/
def KeysCompare (a b : Value) : Prop :=
  ∃ ka kb, a.WritesKey ka ∧ b.WritesKey kb ∧ Separates (a.cmp b) ka kb ∧ (a.cmp b = .eq → a = b)

lemma toInt_coefficient (d : Decimal) : (BitVec.ofInt 128 d.coefficient).toInt = d.coefficient := by
  have h := d.inI128_coefficient
  simp only [inI128, decide_eq_true_eq] at h
  rw [BitVec.toInt_ofInt]
  exact Int.bmod_eq_of_le_mul_two (by omega) (by omega)

/-- What a value of a comparable type looks like. -/
def HasShape : Ty → Value → Prop
  | .bool, a => ∃ b, a = .bool b
  | .i64, a => ∃ v, a = .i64 v
  | .u64, a => ∃ v, a = .u64 v
  | .uuid, a => ∃ u, a = .uuid u
  | .bytes _, a => ∃ b, a = .bytes b
  | .string _, a => ∃ s, a = .str s
  | .decimal p s, a => ∃ d : Decimal, a = .decimal d ∧ d.precision = p ∧ d.scale = s
  | .enum e, a => ∃ variant, a = .enum e variant
  | .option t, a => a = .none ∨ ∃ v, a = .some v ∧ v.checkType t = .ok ()
  | .tuple ts, a => ∃ items, a = .tuple items ∧ items.length = ts.length ∧
      Value.checkTypes items ts = .ok ()
  | _, _ => True

lemma hasShape_of_checkType {t : Ty} {a : Value} (h : a.checkType t = .ok ()) : HasShape t a := by
  cases t <;> cases a <;> simp [Value.checkType, Value.bad, HasShape] at h ⊢ <;> grind

mutual

/-- Two values of one comparable type compare as their keys do. -/
theorem keysCompare (t : Ty) (ht : t.isComparable) {a b : Value} (ha : a.checkType t = .ok ())
    (hb : b.checkType t = .ok ()) : KeysCompare a b := by
  have hsa := hasShape_of_checkType ha
  have hsb := hasShape_of_checkType hb
  cases t with
  | bool =>
    obtain ⟨x, rfl⟩ := hsa
    obtain ⟨y, rfl⟩ := hsb
    refine ⟨_, _, fun _ => by rw [Value.writeKey], fun _ => by rw [Value.writeKey], ?_, fun h => ?_⟩
    · rw [Value.cmp]
      exact separates_bool x y
    · rw [Value.cmp, compare_eq_iff_eq] at h
      rw [h]
  | i64 =>
    obtain ⟨x, rfl⟩ := hsa
    obtain ⟨y, rfl⟩ := hsb
    refine ⟨_, _, fun _ => by rw [Value.writeKey], fun _ => by rw [Value.writeKey], ?_, fun h => ?_⟩
    · rw [Value.cmp]
      exact separates_i64 x y
    · rw [Value.cmp, compare_eq_iff_eq, Int64.toInt_inj] at h
      rw [h]
  | u64 =>
    obtain ⟨x, rfl⟩ := hsa
    obtain ⟨y, rfl⟩ := hsb
    refine ⟨_, _, fun _ => by rw [Value.writeKey], fun _ => by rw [Value.writeKey], ?_, fun h => ?_⟩
    · rw [Value.cmp]
      exact separates_u64 x y
    · rw [Value.cmp, compare_eq_iff_eq, UInt64.toNat_inj] at h
      rw [h]
  | uuid =>
    obtain ⟨x, rfl⟩ := hsa
    obtain ⟨y, rfl⟩ := hsb
    refine ⟨_, _, fun _ => by rw [Value.writeKey], fun _ => by rw [Value.writeKey], ?_, fun h => ?_⟩
    · rw [Value.cmp]
      exact separates_id16 x y
    · rw [Value.cmp] at h
      rw [Subtype.ext (eq_of_lexCmp h)]
  | bytes n =>
    obtain ⟨x, rfl⟩ := hsa
    obtain ⟨y, rfl⟩ := hsb
    refine ⟨_, _, fun _ => by rw [Value.writeKey], fun _ => by rw [Value.writeKey], ?_, fun h => ?_⟩
    · rw [Value.cmp]
      exact separates_bytes x y
    · rw [Value.cmp] at h
      rw [eq_of_lexCmp h]
  | string n =>
    obtain ⟨x, rfl⟩ := hsa
    obtain ⟨y, rfl⟩ := hsb
    refine ⟨_, _, fun _ => by rw [Value.writeKey], fun _ => by rw [Value.writeKey], ?_, fun h => ?_⟩
    · rw [Value.cmp, Value.compareStr]
      exact separates_bytes (utf8 x) (utf8 y)
    · rw [Value.cmp, Value.compareStr] at h
      rw [utf8_injective (eq_of_lexCmp h)]
  | decimal p s =>
    obtain ⟨x, rfl, hxp, hxs⟩ := hsa
    obtain ⟨y, rfl, hyp, hys⟩ := hsb
    have hcmp : (Value.decimal x).cmp (.decimal y) = compare x.coefficient y.coefficient := by
      rw [Value.cmp, hxp, hxs, hyp, hys]
      simp
    refine ⟨_, _, fun _ => by rw [Value.writeKey], fun _ => by rw [Value.writeKey], ?_, fun h => ?_⟩
    · have h := separates_decimal (BitVec.ofInt 128 x.coefficient) (BitVec.ofInt 128 y.coefficient)
      rwa [toInt_coefficient, toInt_coefficient, ← hcmp] at h
    · rw [hcmp, compare_eq_iff_eq] at h
      rw [Decimal.ext h (hxp.trans hyp.symm) (hxs.trans hys.symm)]
  | enum e =>
    obtain ⟨x, rfl⟩ := hsa
    obtain ⟨y, rfl⟩ := hsb
    have hcmp : (Value.enum e x).cmp (.enum e y) = compare x.toNat y.toNat := by
      rw [Value.cmp]
      simp
    refine ⟨_, _, fun _ => by rw [Value.writeKey], fun _ => by rw [Value.writeKey], ?_, fun h => ?_⟩
    · rw [hcmp]
      exact separates_enum x y
    · rw [hcmp, compare_eq_iff_eq, UInt32.toNat_inj] at h
      rw [h]
  | option t =>
    rw [Ty.isComparable] at ht
    rcases hsa with rfl | ⟨x, rfl, hx⟩
    · rcases hsb with rfl | ⟨y, rfl, hy⟩
      · refine ⟨_, _, fun _ => by rw [Value.writeKey], fun _ => by rw [Value.writeKey], ?_,
          fun _ => rfl⟩
        exact Separates.refl _
      · obtain ⟨-, ky, -, hky, -⟩ := keysCompare t ht hy hy
        refine ⟨_, KeyElem.some.write ++ ky, fun _ => by rw [Value.writeKey], fun w => ?_, ?_,
          fun h => ?_⟩
        · rw [Value.writeKey, hky, List.append_assoc]
        · exact (separates_of_lt (a := 0) (b := 1) (by decide) [0x17] [] ky).1
        · simp [Value.cmp, Value.rank] at h
    · rcases hsb with rfl | ⟨y, rfl, hy⟩
      · obtain ⟨kx, -, hkx, -⟩ := keysCompare t ht hx hx
        refine ⟨KeyElem.some.write ++ kx, _, fun w => ?_, fun _ => by rw [Value.writeKey], ?_,
          fun h => ?_⟩
        · rw [Value.writeKey, hkx, List.append_assoc]
        · exact (separates_of_lt (a := 0) (b := 1) (by decide) [0x17] [] kx).2
        · simp [Value.cmp, Value.rank] at h
      · obtain ⟨kx, ky, hkx, hky, hsep, heq⟩ := keysCompare t ht hx hy
        refine ⟨KeyElem.some.write ++ kx, KeyElem.some.write ++ ky, fun w => ?_, fun w => ?_, ?_,
          fun h => ?_⟩
        · rw [Value.writeKey, hkx, List.append_assoc]
        · rw [Value.writeKey, hky, List.append_assoc]
        · rw [Value.cmp]
          exact (Separates.refl _).append hsep
        · rw [Value.cmp] at h
          rw [heq h]
  | tuple ts =>
    rw [Ty.isComparable] at ht
    obtain ⟨as, rfl, hla, has⟩ := hsa
    obtain ⟨bs, rfl, hlb, hbs⟩ := hsb
    obtain ⟨kas, kbs, hka, hkb, hsep, heq⟩ := keysCompare_items ts ht hla hlb has hbs
    refine ⟨(KeyElem.tuple (UInt16.ofNat ts.length)).write ++ kas,
      (KeyElem.tuple (UInt16.ofNat ts.length)).write ++ kbs, fun w => ?_, fun w => ?_, ?_,
      fun h => ?_⟩
    · rw [Value.writeKey, hka, hla, List.append_assoc]
    · rw [Value.writeKey, hkb, hlb, List.append_assoc]
    · rw [Value.cmp]
      exact (Separates.refl _).append hsep
    · rw [Value.cmp] at h
      rw [heq h]
  | set t => simp [Ty.isComparable] at ht
  | row r => simp [Ty.isComparable] at ht
  | struct fs => simp [Ty.isComparable] at ht
  | unit => simp [Ty.isComparable] at ht

/-- The items of two tuples of one type, one after the other. -/
theorem keysCompare_items (ts : List Ty) (ht : Ty.allComparable ts) {as bs : List Value}
    (hla : as.length = ts.length) (hlb : bs.length = ts.length)
    (ha : Value.checkTypes as ts = .ok ()) (hb : Value.checkTypes bs ts = .ok ()) :
    ∃ ka kb, (∀ w, Value.writeKeys as w = .ok (w ++ ka)) ∧
      (∀ w, Value.writeKeys bs w = .ok (w ++ kb)) ∧
      Separates (Value.cmpItems as bs) ka kb ∧ (Value.cmpItems as bs = .eq → as = bs) := by
  cases ts with
  | nil =>
    obtain rfl := List.length_eq_zero_iff.mp hla
    obtain rfl := List.length_eq_zero_iff.mp hlb
    exact ⟨[], [], by simp [Value.writeKeys], by simp [Value.writeKeys], Separates.refl _,
      fun _ => rfl⟩
  | cons t ts =>
    obtain ⟨a, as, rfl⟩ := List.exists_cons_of_length_eq_add_one hla
    obtain ⟨b, bs, rfl⟩ := List.exists_cons_of_length_eq_add_one hlb
    rw [Ty.allComparable, Bool.and_eq_true] at ht
    rw [Value.checkTypes] at ha hb
    obtain ⟨⟨⟩, ha, has⟩ := CoreResult.bind_eq_ok ha
    obtain ⟨⟨⟩, hb, hbs⟩ := CoreResult.bind_eq_ok hb
    obtain ⟨ka, kb, hka, hkb, hsep, heq⟩ := keysCompare t ht.1 ha hb
    obtain ⟨kas, kbs, hkas, hkbs, hseps, heqs⟩ :=
      keysCompare_items ts ht.2 (Nat.succ.inj hla) (Nat.succ.inj hlb) has hbs
    refine ⟨ka ++ kas, kb ++ kbs, fun w => ?_, fun w => ?_, ?_, fun h => ?_⟩
    · rw [Value.writeKeys, hka, CoreResult.ok_bind, hkas, List.append_assoc]
    · rw [Value.writeKeys, hkb, CoreResult.ok_bind, hkbs, List.append_assoc]
    · rw [Value.cmpItems]
      exact hsep.append hseps
    · rw [Value.cmpItems, Ordering.then_eq_eq] at h
      rw [heq h.1, heqs h.2]

end

/-- Keys sort as values and are read back. Two values of a comparable type have keys whose byte
order is the order of the values, so equal keys are keys of one value; and the reader returns the
elements the writer was given, behind a namespace or not, up to the end of the key. -/
theorem key_encoding_ordered :
    (∀ (t : Ty) (a b : Value), t.isComparable → a.checkType t = .ok () → b.checkType t = .ok () →
      ∃ ka kb, a.keyBytes = .ok ka ∧ b.keyBytes = .ok kb ∧ lexCmp compare ka kb = a.cmp b ∧
        (ka = kb ↔ a = b)) ∧
    ∀ es : List KeyElem,
      KeyReader.elems es.length (writeKeyElems es) = .ok (es, []) ∧ KeyReader.finish [] = .ok () ∧
      ∀ ns : Namespace, KeyReader.takeNamespace (ns.toByte :: writeKeyElems es) =
        .ok (ns, writeKeyElems es) := by
  refine ⟨fun t a b ht ha hb => ?_, fun es => ⟨KeyReader.elems_write es, rfl, fun ns => ?_⟩⟩
  · obtain ⟨ka, kb, hka, hkb, hsep, heq⟩ := keysCompare t ht ha hb
    refine ⟨ka, kb, hka [], hkb [], hsep.lexCmp_eq, fun h => ?_, ?_⟩
    · apply heq
      rw [← hsep.lexCmp_eq, h, lexCmp_self]
    · rintro rfl
      have h := (hka []).symm.trans (hkb [])
      simpa using h
  · simp [KeyReader.takeNamespace, Namespace.fromByte_toByte, Except.map]

/-- Pairs of a byte string with a zero byte and a signed number. -/
def bytesAndNumber : Ty := .tuple [.bytes 4, .i64]

theorem key_encoding_ordered_bytesAndNumber :
    ∃ ka kb, (Value.tuple [.bytes [7], .i64 3]).keyBytes = .ok ka ∧
      (Value.tuple [.bytes [7, 0], .i64 (-3)]).keyBytes = .ok kb ∧
      lexCmp compare ka kb = .lt ∧ ka ≠ kb := by
  obtain ⟨ka, kb, hka, hkb, hcmp, -⟩ := key_encoding_ordered.1 bytesAndNumber
    (.tuple [.bytes [7], .i64 3]) (.tuple [.bytes [7, 0], .i64 (-3)]) rfl rfl rfl
  refine ⟨ka, kb, hka, hkb, hcmp.trans (by decide), ?_⟩
  rintro rfl
  rw [lexCmp_self] at hcmp
  exact absurd hcmp (by decide)

end Lang

end CarolinaDB
