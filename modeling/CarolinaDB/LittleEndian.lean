import CarolinaDB.Bytes

/-!
# Little-endian numbers and fields of byte strings

Numbers written in a fixed number of bytes, lowest first, and the bytes of a
record at a fixed offset.
-/
namespace CarolinaDB

/-- The lowest `n` bytes of `x`, the lowest one first. -/
def littleEndian : ℕ → ℕ → Bytes
  | 0, _ => []
  | n+1, x => UInt8.ofNat x :: littleEndian n (x / 256)

def fromLittleEndian (bytes : Bytes) : ℕ := bytes.foldr (fun b x => b.toNat + 256 * x) 0

@[simp] lemma length_littleEndian (n x : ℕ) : (littleEndian n x).length = n := by
  induction n generalizing x with
  | zero => rfl
  | succ n ih => simp [littleEndian, ih]

lemma fromLittleEndian_littleEndian (n x : ℕ) :
    fromLittleEndian (littleEndian n x) = x % 256 ^ n := by
  induction n generalizing x with
  | zero => simp [littleEndian, fromLittleEndian, Nat.mod_one]
  | succ n ih =>
    have hbyte : (UInt8.ofNat x).toNat = x % 256 := UInt8.toNat_ofNat'
    have hmod : x % 256 ^ (n+1) = x % 256 + 256 * (x / 256 % 256 ^ n) := by
      rw [pow_succ', Nat.mod_mul]
    rw [hmod, ← ih (x / 256), ← hbyte]
    rfl

lemma fromLittleEndian_lt (bytes : Bytes) : fromLittleEndian bytes < 256 ^ bytes.length := by
  induction bytes with
  | nil => simp [fromLittleEndian]
  | cons b bytes ih =>
    have hb := b.toNat_lt
    rw [List.length_cons, pow_succ']
    change b.toNat + 256 * fromLittleEndian bytes < _
    omega

/-- The `n` bytes at an offset. -/
def slice (bytes : Bytes) (offset n : ℕ) : Bytes := (bytes.drop offset).take n

/-- The number in the `n` bytes at an offset. -/
def numberAt (bytes : Bytes) (offset n : ℕ) : ℕ := fromLittleEndian (slice bytes offset n)

lemma numberAt_lt (bytes : Bytes) (o n : ℕ) : numberAt bytes o n < 256 ^ n := by
  refine (fromLittleEndian_lt _).trans_le (Nat.pow_le_pow_right (by decide) ?_)
  exact List.length_take_le _ _

section Slice
variable {a b : Bytes}

lemma slice_middle {o n : ℕ} (ha : a.length = o) (hb : b.length = n) (r : Bytes) :
    slice (a ++ (b ++ r)) o n = b := by
  simp [slice, ← ha, ← hb]

lemma numberAt_littleEndian {o n x : ℕ} (ha : a.length = o) (hx : x < 256 ^ n) (r : Bytes) :
    numberAt (a ++ (littleEndian n x ++ r)) o n = x := by
  rw [numberAt, slice_middle ha (by simp), fromLittleEndian_littleEndian, Nat.mod_eq_of_lt hx]

lemma slice_append_of_le {o n : ℕ} (h : o + n ≤ a.length) (r : Bytes) :
    slice (a ++ r) o n = slice a o n := by
  rw [slice, slice, List.drop_append_of_le_length (by omega), List.take_append_of_le_length]
  rw [List.length_drop]
  omega

end Slice

/-- Numbers in fields of given widths, one after the other. -/
def pack (fields : List (ℕ × ℕ)) : Bytes := fields.flatMap fun f => littleEndian f.1 f.2

section Pack

lemma length_pack (fields : List (ℕ × ℕ)) : (pack fields).length = (fields.map Prod.fst).sum := by
  induction fields with
  | nil => rfl
  | cons f fields ih =>
    rw [pack, List.flatMap_cons, List.length_append, length_littleEndian, List.map_cons,
      List.sum_cons, ← ih, pack]

/-- A field is read at the sum of the widths before it. -/
lemma numberAt_pack {a r : Bytes} {n x o : ℕ} (before after : List (ℕ × ℕ)) (hx : x < 256 ^ n)
    (ho : a.length + (before.map Prod.fst).sum = o) :
    numberAt (a ++ (pack (before ++ (n, x) :: after) ++ r)) o n = x := by
  have hsplit : a ++ (pack (before ++ (n, x) :: after) ++ r) =
      (a ++ pack before) ++ (littleEndian n x ++ (pack after ++ r)) := by
    simp [pack]
  rw [hsplit]
  exact numberAt_littleEndian (by rw [List.length_append, length_pack, ho]) hx _

end Pack

end CarolinaDB
