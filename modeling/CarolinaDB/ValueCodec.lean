import CarolinaDB.LangInterp

/-!
# Canonical form of types, values and accepted invocations

What an invocation leaves in a receipt: its arguments, the reads it captured, the
decisions of its guards, its literal effects and its result.
-/
namespace CarolinaDB

namespace CanonValue

def asI128 (v : CanonValue) : CoreResult ℤ := do
  parseCanonicalInt (← v.asStr)

def asI64 (v : CanonValue) : CoreResult Int64 := do
  let x ← v.asI128
  if -(2 ^ 63) ≤ x ∧ x < 2 ^ 63 then .ok (Int64.ofInt x)
  else .error (.new .numericOverflow "integer out of i64 range")

mutual

/-- How deep a value nests. -/
def depth : CanonValue → ℕ
  | .array vs => depthItems vs + 1
  | .object fs => depthFields fs + 1
  | _ => 0

def depthItems : List CanonValue → ℕ
  | [] => 0
  | v :: vs => max v.depth (depthItems vs)

def depthFields : List (String × CanonValue) → ℕ
  | [] => 0
  | (_, v) :: fs => max v.depth (depthFields fs)

end

end CanonValue

namespace Lang

open CanonValue

namespace Value

mutual

def toCanon : Value → CanonValue
  | bool b => build [("kind", .str "bool"), ("value", .bool b)]
  | i64 v => build [("kind", .str "i64"), ("value", .int v.toInt)]
  | u64 v => build [("kind", .str "u64"), ("value", .uint v)]
  | uuid u => build [("kind", .str "uuid"), ("value", .bytes u.val)]
  | bytes b => build [("kind", .str "bytes"), ("value", .bytes b)]
  | str s => build [("kind", .str "string"), ("value", .str s)]
  | decimal d => build [
      ("coefficient", .int d.coefficient),
      ("kind", .str "decimal"),
      ("precision", .u32 d.precision.toUInt32),
      ("scale", .u32 d.scale.toUInt32)]
  | enum e v => build [
      ("enum", Canonical.toCanon e),
      ("kind", .str "enum"),
      ("variant", .u32 v)]
  | none => build [("kind", .str "none")]
  | some v => build [("kind", .str "some"), ("value", v.toCanon)]
  | set items => build [
      ("items", .array ((itemsCanon items).insertionSort encodedLE)),
      ("kind", .str "set")]
  | tuple items => build [("items", .array (itemsCanon items)), ("kind", .str "tuple")]
  | row r fs => build [
      ("fields", build (fieldsCanon fs)),
      ("kind", .str "row"),
      ("record", Canonical.toCanon r)]
  | struct fs => build [("fields", build (fieldsCanon fs)), ("kind", .str "struct")]
  | unit => build [("kind", .str "unit")]

def itemsCanon : List Value → List CanonValue
  | [] => []
  | v :: vs => v.toCanon :: itemsCanon vs

def fieldsCanon : List (String × Value) → List (String × CanonValue)
  | [] => []
  | (n, v) :: fs => (n, v.toCanon) :: fieldsCanon fs

end

def readFields (read : CanonValue → CoreResult Value) :
    List (String × CanonValue) → List (String × Value) → CoreResult (List (String × Value))
  | [], out => .ok out
  | (k, v) :: fs, out => do
    let w ← read v
    readFields read fs (insertField out k w)

/-- Read a value that nests less deep than the bound. -/
def readValue : ℕ → CanonValue → CoreResult Value
  | 0, _ => .error .panicked
  | n + 1, v => do
    let kind ← (← v.field "kind").asStr
    if kind = "bool" then do
      v.expectFields ["kind", "value"]
      .ok (.bool (← (← v.field "value").asBool))
    else if kind = "i64" then do
      v.expectFields ["kind", "value"]
      .ok (.i64 (← (← v.field "value").asI64))
    else if kind = "u64" then do
      v.expectFields ["kind", "value"]
      .ok (.u64 (← (← v.field "value").asU64))
    else if kind = "uuid" then do
      v.expectFields ["kind", "value"]
      let b ← (← v.field "value").asBytes
      if h : b.length = 16 then .ok (.uuid ⟨b, h⟩)
      else .error (.new .nonCanonicalEncoding "uuid must be 16 bytes")
    else if kind = "bytes" then do
      v.expectFields ["kind", "value"]
      .ok (.bytes (← (← v.field "value").asBytes))
    else if kind = "string" then do
      v.expectFields ["kind", "value"]
      .ok (.str (← (← v.field "value").asStr))
    else if kind = "decimal" then do
      v.expectFields ["coefficient", "kind", "precision", "scale"]
      let c ← (← v.field "coefficient").asI128
      let p ← (← v.field "precision").asU32
      let s ← (← v.field "scale").asU32
      .ok (.decimal (← Decimal.new c p.toUInt8 s.toUInt8))
    else if kind = "enum" then do
      v.expectFields ["enum", "kind", "variant"]
      let e ← v.fieldAs "enum"
      .ok (.enum e (← (← v.field "variant").asU32))
    else if kind = "none" then do
      v.expectFields ["kind"]
      .ok .none
    else if kind = "some" then do
      v.expectFields ["kind", "value"]
      .ok (.some (← readValue n (← v.field "value")))
    else if kind = "set" then do
      v.expectFields ["items", "kind"]
      let items ← (← (← v.field "items").asSet).mapM (readValue n)
      .ok (.set (items.foldl insertValue []))
    else if kind = "tuple" then do
      v.expectFields ["items", "kind"]
      .ok (.tuple (← (← (← v.field "items").asArray).mapM (readValue n)))
    else if kind = "row" then do
      v.expectFields ["fields", "kind", "record"]
      let fields ← readFields (readValue n) (← (← v.field "fields").asObject) []
      .ok (.row (← v.fieldAs "record") fields)
    else if kind = "struct" then do
      v.expectFields ["fields", "kind"]
      .ok (.struct (← readFields (readValue n) (← (← v.field "fields").asObject) []))
    else if kind = "unit" then do
      v.expectFields ["kind"]
      .ok .unit
    else .error (.new .nonCanonicalEncoding ("unknown value kind `" ++ kind ++ "`"))

def fromCanon (v : CanonValue) : CoreResult Value := readValue (v.depth + 1) v

instance : Canonical Value := ⟨toCanon, fromCanon, fun _ => true⟩

end Value

/-- Fields by the decimal text of their ids. -/
def rowCanon (row : Row) : CanonValue :=
  build (row.toList.map fun f => (decimal f.1.toNat, f.2.toCanon))

end Lang

end CarolinaDB
