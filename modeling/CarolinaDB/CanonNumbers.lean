import CarolinaDB.CanonIntegers

/-! Bytes as lowercase hexadecimal text and the fixed-width integers of the canonical form:
the writers, the strict readers, and that each text reads back. -/
namespace CarolinaDB

section Hex

def hexEncode (b : Bytes) : String :=
  String.ofList ((b.flatMap fun x => [hexDigit (x / 16), hexDigit (x % 16)]).map asciiChar)

def hexPairs : Bytes → CoreResult Bytes
  | a :: b :: rest =>
    match nibble a, nibble b with
    | some x, some y => (hexPairs rest).map fun out => (x * 16 + y) :: out
    | _, _ => .error (.new .nonCanonicalEncoding "non-canonical hex (uppercase or non-hex)")
  | _ => .ok []

/-- Strict lowercase hexadecimal decoder. -/
def hexDecode (s : String) : CoreResult Bytes :=
  if (utf8 s).length % 2 ≠ 0 then .error (.new .nonCanonicalEncoding "odd hex length")
  else hexPairs (utf8 s)

lemma utf8_hexEncode (b : Bytes) :
    utf8 (hexEncode b) = b.flatMap fun x => [hexDigit (x / 16), hexDigit (x % 16)] := by
  rw [hexEncode, utf8_asciiChars]
  intro c hc
  simp only [List.mem_flatMap, List.mem_cons, List.not_mem_nil, or_false] at hc
  obtain ⟨x, -, rfl | rfl⟩ := hc
  · exact hexDigit_lt (div_sixteen_lt x)
  · exact hexDigit_lt (mod_sixteen_lt x)

lemma length_utf8_hexEncode (b : Bytes) : (utf8 (hexEncode b)).length = 2 * b.length := by
  rw [utf8_hexEncode]
  induction b with
  | nil => rfl
  | cons x b ih =>
    rw [List.flatMap_cons, List.length_append, ih]
    simp
    omega

lemma hexDecode_hexEncode (b : Bytes) : hexDecode (hexEncode b) = .ok b := by
  rw [hexDecode, length_utf8_hexEncode, if_neg (by omega), utf8_hexEncode]
  induction b with
  | nil => rfl
  | cons x b ih =>
    rw [List.flatMap_cons, List.cons_append, List.cons_append, List.nil_append, hexPairs]
    simp only [nibble_hexDigit (div_sixteen_lt x), nibble_hexDigit (mod_sixteen_lt x), ih,
      Except.map, sixteen_mul_add]

lemma escapeByte_hexDigit {n : UInt8} (h : n < 16) : escapeByte (hexDigit n) = [hexDigit n] := by
  unfold escapeByte hexDigit
  grind

/-- Hexadecimal text needs no escapes: it is twice as long as the bytes it stands for. -/
lemma length_escape_hexEncode (b : Bytes) : (escape (hexEncode b)).length = 2 * b.length := by
  rw [← length_utf8_hexEncode, escape_eq, utf8_hexEncode, List.flatMap_assoc]
  congr 1
  refine congrArg (List.flatMap · b) (funext fun x => ?_)
  simp [escapeByte_hexDigit (div_sixteen_lt x), escapeByte_hexDigit (mod_sixteen_lt x)]

end Hex

namespace CanonValue

def asU64 (v : CanonValue) : CoreResult UInt64 := do
  let s ← v.asStr
  let n ← parseCanonicalInt s
  if n < 0 then .error (.new .nonCanonicalEncoding "negative value where unsigned expected")
  else if n < 2^64 then .ok (UInt64.ofNat n.toNat)
  else .error (.new .numericOverflow "integer out of u64 range")

def asU32 (v : CanonValue) : CoreResult UInt32 := do
  let n ← v.asU64
  if n.toNat < 2^32 then .ok (UInt32.ofNat n.toNat)
  else .error (.new .numericOverflow "integer out of u32 range")

def asBytes (v : CanonValue) : CoreResult Bytes := do
  let s ← v.asStr
  hexDecode s

def uint (n : UInt64) : CanonValue := .str (decimal n.toNat)

def u32 (n : UInt32) : CanonValue := .str (decimal n.toNat)

def bytes (b : Bytes) : CanonValue := .str (hexEncode b)

lemma asU64_decimal {n : ℕ} (h : n < 2^64) : (str (decimal n)).asU64 = .ok (UInt64.ofNat n) := by
  simp only [asU64, asStr, bind, Except.bind, parseCanonicalInt_decimal h]
  rw [if_neg (by omega), if_pos (by exact_mod_cast h), Int.toNat_natCast]

lemma asU64_uint (n : UInt64) : (uint n).asU64 = .ok n := by
  rw [uint, asU64_decimal n.toNat_lt, UInt64.ofNat_toNat]

lemma asU32_u32 (n : UInt32) : (u32 n).asU32 = .ok n := by
  have h := n.toNat_lt
  have h64 : n.toNat < 2^64 := h.trans (by norm_num)
  have hmod : (UInt64.ofNat n.toNat).toNat = n.toNat := by
    rw [UInt64.toNat_ofNat', Nat.mod_eq_of_lt h64]
  simp only [asU32, u32, asU64_decimal h64, bind, Except.bind, hmod]
  rw [if_pos h, UInt32.ofNat_toNat]

lemma asBytes_bytes (b : Bytes) : (bytes b).asBytes = .ok b := by
  simp only [asBytes, bytes, asStr, bind, Except.bind, hexDecode_hexEncode]

end CanonValue

end CarolinaDB
