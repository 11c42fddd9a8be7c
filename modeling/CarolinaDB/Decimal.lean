import CarolinaDB.CoreError

/-! Checked decimals of a fixed scale. A decimal carries the proof that its
coefficient fits its precision. -/
namespace CarolinaDB

/-- Whether a number is in the range of a signed 128-bit integer. -/
def inI128 (x : ℤ) : Bool := -(2 ^ 127) ≤ x ∧ x < 2 ^ 127

@[ext] structure Decimal where
  coefficient : ℤ
  precision : UInt8
  scale : UInt8
  precision_pos : precision ≠ 0
  precision_le : precision ≤ 38
  scale_le : scale ≤ precision
  range : -(10 ^ precision.toNat) < coefficient ∧ coefficient < 10 ^ precision.toNat
  deriving DecidableEq

namespace Decimal

def new (coefficient : ℤ) (precision scale : UInt8) : CoreResult Decimal :=
  if hp : precision = 0 ∨ 38 < precision then
    .error (.new .invalidDecimal ("precision " ++ toString precision ++ " out of 1..=38"))
  else if hs : precision < scale then
    .error (.new .invalidDecimal
      ("scale " ++ toString scale ++ " > precision " ++ toString precision))
  else if hr : coefficient ≤ -(10 ^ precision.toNat) ∨ 10 ^ precision.toNat ≤ coefficient then
    .error (.new .numericOverflow ("decimal coefficient " ++ toString coefficient ++
      " does not fit precision " ++ toString precision))
  else
    have hp' := not_or.mp hp
    have hr' := not_or.mp hr
    .ok ⟨coefficient, precision, scale, hp'.1, UInt8.not_lt.mp hp'.2, UInt8.not_lt.mp hs,
      not_le.mp hr'.1, not_le.mp hr'.2⟩

/-- A result that left the range of the coefficient's machine type is refused. -/
def checkedI128 (x : ℤ) (message : String) : CoreResult ℤ :=
  if inI128 x then .ok x else .error (.new .numericOverflow message)

/-- Read `[-]digits[.digits]` as a decimal of the given type. There may be fewer fractional digits
than the scale, not more. -/
def parse (text : String) (precision scale : UInt8) : CoreResult Decimal := do
  let (neg, body) := match text.toList with
    | '-' :: rest => (true, rest)
    | body => (false, body)
  let invalid := CoreError.new .invalidDecimal ("invalid decimal literal `" ++ text ++ "`")
  if body = [] ∨ body.head? = some '+' then .error invalid
  let intPart := body.takeWhile (· ≠ '.')
  let fracPart := (body.dropWhile (· ≠ '.')).tail
  if intPart = [] ∨ ¬ intPart.all Char.isDigit ∨ ¬ fracPart.all Char.isDigit then .error invalid
  if 1 < intPart.length ∧ intPart.head? = some '0' then
    .error (.new .invalidDecimal "redundant leading zero in decimal literal")
  if scale.toNat < fracPart.length then
    .error (.new .invalidDecimal ("literal `" ++ text ++ "` has more than " ++ toString scale ++
      " fractional digits"))
  let digits := intPart ++ fracPart ++ List.replicate (scale.toNat - fracPart.length) '0'
  if 39 < digits.length then .error (.new .numericOverflow "decimal literal too long")
  let c ← digits.foldlM (fun c b => do
    let x ← checkedI128 (c * 10) "decimal literal overflow"
    checkedI128 (x + (b.toNat - '0'.toNat : ℕ)) "decimal literal overflow") 0
  if neg ∧ c = 0 then .error (.new .invalidDecimal "signed zero is forbidden")
  new (if neg then -c else c) precision scale

lemma inI128_coefficient (d : Decimal) : inI128 d.coefficient := by
  have hp : d.precision.toNat ≤ 38 := d.precision_le
  have hle : (10 : ℤ) ^ d.precision.toNat ≤ 10 ^ 38 := pow_le_pow_right₀ (by norm_num) hp
  have hmax : (10 : ℤ) ^ 38 < 2 ^ 127 := by norm_num
  obtain ⟨hlo, hhi⟩ := d.range
  simp only [inI128, decide_eq_true_eq]
  omega

end Decimal

end CarolinaDB
