import CarolinaDB.CanonText
import CarolinaDB.KeyCodec
import CarolinaDB.Lexicographic

/-!
# Key elements

Every element of a key starts with a tag byte and says itself where it ends, so a
key is the concatenation of its elements and is read back without separators.
-/
namespace CarolinaDB

open Lexicographic

/-- A decoded key element. -/
inductive KeyElem
  | u64 (v : UInt64)
  | i64 (v : Int64)
  | bool (v : Bool)
  | id16 (v : Octets 16)
  | bytes (v : Bytes)
  | decimal (coefficient : BitVec 128)
  | enum (idx : UInt32)
  | none
  | some
  | tuple (arity : UInt16)
  deriving DecidableEq, Repr

/-- The bits of a signed number with the sign flipped; unsigned, they keep its order. -/
def signFlip {w : ℕ} (b : BitVec w) : BitVec w := b ^^^ BitVec.intMin w

lemma signFlip_signFlip {w : ℕ} (b : BitVec w) : signFlip (signFlip b) = b := by
  simp [signFlip]

/-- Flipping the highest bit of a number moves it by half of the range. -/
lemma xor_two_pow {w n : ℕ} (h : n < 2 ^ w * 2) :
    n ^^^ 2 ^ w = if n < 2 ^ w then n + 2 ^ w else n - 2 ^ w := by
  have hpos : 0 < 2 ^ w := Nat.two_pow_pos w
  have hmod : (n ^^^ 2 ^ w) % 2 ^ w = n % 2 ^ w := by
    rw [Nat.xor_mod_two_pow, Nat.mod_self, Nat.xor_zero]
  have hdiv : (n ^^^ 2 ^ w) / 2 ^ w = n / 2 ^ w ^^^ 1 := by
    rw [Nat.xor_div_two_pow, Nat.div_self hpos]
  have hsplit := Nat.div_add_mod (n ^^^ 2 ^ w) (2 ^ w)
  rw [hmod, hdiv] at hsplit
  split_ifs with hn
  · rw [Nat.div_eq_of_lt hn, Nat.mod_eq_of_lt hn] at hsplit
    simp only [Nat.zero_xor, mul_one] at hsplit
    omega
  · have hone : n / 2 ^ w = 1 := by
      rw [Nat.div_eq_iff hpos]
      omega
    have hrest := Nat.div_add_mod n (2 ^ w)
    rw [hone, mul_one] at hrest
    rw [hone, Nat.xor_self, mul_zero] at hsplit
    omega

lemma toNat_signFlip {w : ℕ} (b : BitVec (w+1)) :
    ((signFlip b).toNat : ℤ) = b.toInt + (2 ^ w : ℕ) := by
  have hmin : (BitVec.intMin (w+1)).toNat = 2 ^ w := by
    rw [BitVec.toNat_intMin]
    exact Nat.mod_eq_of_lt (Nat.pow_lt_pow_right (by norm_num) (Nat.lt_succ_self w))
  have hlt := b.isLt
  rw [pow_succ] at hlt
  rw [signFlip, BitVec.toNat_xor, hmin, xor_two_pow hlt, BitVec.toInt_eq_toNat_cond, pow_succ]
  split_ifs <;> omega

lemma compare_signFlip {w : ℕ} (a b : BitVec (w+1)) :
    compare (signFlip a).toNat (signFlip b).toNat = compare a.toInt b.toInt := by
  have ha := toNat_signFlip a
  have hb := toNat_signFlip b
  rcases lt_trichotomy a.toInt b.toInt with h | h | h
  · rw [compare_lt_iff_lt.mpr h, compare_lt_iff_lt]
    omega
  · rw [compare_eq_iff_eq.mpr h, compare_eq_iff_eq]
    omega
  · rw [compare_gt_iff_gt.mpr h, compare_gt_iff_gt]
    omega

namespace KeyElem

/-- The bytes `KeyWriter` appends for an element. -/
def write : KeyElem → Bytes
  | u64 v => 0x10 :: bigEndian 8 v.toNat
  | i64 v => 0x11 :: bigEndian 8 (signFlip v.toBitVec).toNat
  | bool v => [0x12, if v then 1 else 0]
  | id16 v => 0x13 :: v.val
  | bytes v => keyBytes v
  | decimal c => 0x15 :: bigEndian 16 (signFlip c).toNat
  | enum idx => 0x16 :: bigEndian 4 idx.toNat
  | none => [0x17, 0]
  | some => [0x17, 1]
  | tuple arity => 0x18 :: bigEndian 2 arity.toNat

end KeyElem

/-- The bytes of a key written element by element. -/
def writeKeyElems (es : List KeyElem) : Bytes := es.flatMap KeyElem.write

namespace KeyReader

def take (n : ℕ) (src : Bytes) : CoreResult (Bytes × Bytes) :=
  if src.length < n then .error (.new .corruption "truncated key")
  else .ok (src.take n, src.drop n)

/-- The namespace a key starts with, and the rest. -/
def takeNamespace : Bytes → CoreResult (Namespace × Bytes)
  | [] => .error (.new .corruption "truncated key")
  | b :: rest => (Namespace.fromByte b).map fun ns => (ns, rest)

/-- An unescaped byte string up to its terminator. -/
def readBytes : Bytes → CoreResult (Bytes × Bytes)
  | [] => .error (.new .corruption "truncated key")
  | b :: src =>
    if b = 0 then
      match src with
      | [] => .error (.new .corruption "truncated key")
      | n :: src =>
        if n = 0 then .ok ([], src)
        else if n = 0xff then (readBytes src).map fun (out, rest) => (0 :: out, rest)
        else .error (.new .corruption "bad escape in key bytes")
    else (readBytes src).map fun (out, rest) => (b :: out, rest)

/-- Sixteen bytes as an identifier. -/
def toId16 (b : Bytes) : CoreResult (Octets 16) :=
  if h : b.length = 16 then .ok ⟨b, h⟩ else .error .panicked

/-- The next element and what follows it. -/
def elem : Bytes → CoreResult (KeyElem × Bytes)
  | [] => .error (.new .corruption "truncated key")
  | tag :: src =>
    if tag = 0x10 then
      (take 8 src).map fun (b, rest) => (.u64 (UInt64.ofNat (fromBigEndian b)), rest)
    else if tag = 0x11 then
      (take 8 src).map fun (b, rest) =>
        (.i64 (.ofBitVec (signFlip (BitVec.ofNat 64 (fromBigEndian b)))), rest)
    else if tag = 0x12 then
      match src with
      | [] => .error (.new .corruption "truncated key")
      | b :: rest =>
        if b = 0 then .ok (.bool false, rest)
        else if b = 1 then .ok (.bool true, rest)
        else .error (.new .corruption "bad bool byte")
    else if tag = 0x13 then do
      let (b, rest) ← take 16 src
      (toId16 b).map fun id => (.id16 id, rest)
    else if tag = 0x14 then (readBytes src).map fun (out, rest) => (.bytes out, rest)
    else if tag = 0x15 then
      (take 16 src).map fun (b, rest) =>
        (.decimal (signFlip (BitVec.ofNat 128 (fromBigEndian b))), rest)
    else if tag = 0x16 then
      (take 4 src).map fun (b, rest) => (.enum (UInt32.ofNat (fromBigEndian b)), rest)
    else if tag = 0x17 then
      match src with
      | [] => .error (.new .corruption "truncated key")
      | b :: rest =>
        if b = 0 then .ok (.none, rest)
        else if b = 1 then .ok (.some, rest)
        else .error (.new .corruption "bad option byte")
    else if tag = 0x18 then
      (take 2 src).map fun (b, rest) => (.tuple (UInt16.ofNat (fromBigEndian b)), rest)
    else .error (.new .corruption ("unknown key tag " ++ Namespace.showHex tag))

/-- The next `n` elements. -/
def elems : ℕ → Bytes → CoreResult (List KeyElem × Bytes)
  | 0, src => .ok ([], src)
  | n+1, src => do
    let (e, rest) ← elem src
    (elems n rest).map fun (es, rest) => (e :: es, rest)

def finish (src : Bytes) : CoreResult Unit :=
  if src ≠ [] then .error (.new .corruption "trailing bytes in key") else .ok ()

lemma take_append {n : ℕ} {b : Bytes} (h : b.length = n) (rest : Bytes) :
    take n (b ++ rest) = .ok (b, rest) := by
  subst h
  simp [take]

lemma readBytes_append (v rest : Bytes) :
    readBytes (v.flatMap (fun b => if b = 0 then [0x00, 0xff] else [b]) ++ 0x00 :: 0x00 :: rest) =
      .ok (v, rest) := by
  induction v with
  | nil => simp [readBytes]
  | cons b v ih =>
    rw [List.flatMap_cons]
    split_ifs with hb
    · subst hb
      simp only [List.cons_append, List.nil_append]
      rw [readBytes.eq_def]
      simp [ih, Except.map]
    · simp only [List.cons_append, List.nil_append]
      rw [readBytes.eq_def]
      simp [hb, ih, Except.map]

lemma take_bigEndian (n x : ℕ) (rest : Bytes) :
    take n (bigEndian n x ++ rest) = .ok (bigEndian n x, rest) :=
  take_append (length_bigEndian n x) rest

/-- An element is read back, whatever follows it. -/
theorem elem_write (e : KeyElem) (rest : Bytes) : elem (e.write ++ rest) = .ok (e, rest) := by
  cases e with
  | u64 v =>
    have hv : fromBigEndian (bigEndian 8 v.toNat) = v.toNat := by
      rw [fromBigEndian_bigEndian]
      exact Nat.mod_eq_of_lt v.toNat_lt
    simp [KeyElem.write, elem, take_bigEndian, Except.map, hv]
  | i64 v =>
    have hv : fromBigEndian (bigEndian 8 (signFlip v.toBitVec).toNat) =
        (signFlip v.toBitVec).toNat := by
      rw [fromBigEndian_bigEndian]
      exact Nat.mod_eq_of_lt (signFlip v.toBitVec).isLt
    simp [KeyElem.write, elem, take_bigEndian, Except.map, hv, signFlip_signFlip]
  | bool v => cases v <;> rfl
  | id16 v => simp [KeyElem.write, elem, take_append v.2, toId16, v.2, Except.map]
  | bytes v => simp [KeyElem.write, keyBytes, elem, readBytes_append, Except.map]
  | decimal c =>
    have hc : fromBigEndian (bigEndian 16 (signFlip c).toNat) = (signFlip c).toNat := by
      rw [fromBigEndian_bigEndian]
      exact Nat.mod_eq_of_lt (signFlip c).isLt
    simp [KeyElem.write, elem, take_bigEndian, Except.map, hc, signFlip_signFlip]
  | enum idx =>
    have hidx : fromBigEndian (bigEndian 4 idx.toNat) = idx.toNat := by
      rw [fromBigEndian_bigEndian]
      exact Nat.mod_eq_of_lt idx.toNat_lt
    simp [KeyElem.write, elem, take_bigEndian, Except.map, hidx]
  | none => rfl
  | some => rfl
  | tuple arity =>
    have ha : fromBigEndian (bigEndian 2 arity.toNat) = arity.toNat := by
      rw [fromBigEndian_bigEndian]
      exact Nat.mod_eq_of_lt arity.toNat_lt
    simp [KeyElem.write, elem, take_bigEndian, Except.map, ha]

/-- The elements of a key are read back in order and use it up. -/
theorem elems_write (es : List KeyElem) : elems es.length (writeKeyElems es) = .ok (es, []) := by
  induction es with
  | nil => rfl
  | cons e es ih =>
    rw [writeKeyElems] at ih
    simp [writeKeyElems, elems, elem_write, ih, Except.map]

end KeyReader

end CarolinaDB
