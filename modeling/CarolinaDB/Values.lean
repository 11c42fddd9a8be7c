import CarolinaDB.Decimal
import CarolinaDB.Ids
import CarolinaDB.KeyElement

/-!
# Types and values of the contract language

Values are totally ordered, so that they can be elements of sets and parts of
keys. Sets and rows are kept as lists in the order of the source's trees.
-/
namespace CarolinaDB.Lang

open Lexicographic

abbrev RecordId := UInt64
abbrev FieldId := UInt64
abbrev EnumId := UInt64

inductive Ty
  | bool
  | i64
  | u64
  | uuid
  | bytes (maxLen : UInt32)
  | string (maxUtf8Bytes : UInt32)
  | decimal (precision scale : UInt8)
  | enum (id : EnumId)
  | option (inner : Ty)
  | set (element : Ty)
  | tuple (items : List Ty)
  | row (record : RecordId)
  | struct (fields : List (String × Ty))
  | unit
  deriving Repr

namespace Ty

mutual

def isComparable : Ty → Bool
  | option inner => isComparable inner
  | tuple items => allComparable items
  | set _ | row _ | struct _ | unit => false
  | _ => true

def allComparable : List Ty → Bool
  | [] => true
  | t :: ts => isComparable t && allComparable ts

end

mutual

def describe : Ty → String
  | bool => "Bool"
  | i64 => "I64"
  | u64 => "U64"
  | uuid => "Uuid"
  | bytes n => "Bytes(" ++ toString n ++ ")"
  | string n => "String(" ++ toString n ++ ")"
  | decimal p s => "Decimal(" ++ toString p ++ "," ++ toString s ++ ")"
  | enum e => "Enum#" ++ toString e
  | option t => "Option<" ++ describe t ++ ">"
  | set t => "Set<" ++ describe t ++ ">"
  | tuple ts => "(" ++ ", ".intercalate (describeItems ts) ++ ")"
  | row r => "Row<Record#" ++ toString r ++ ">"
  | struct fs => "\x7b" ++ ", ".intercalate (describeFields fs) ++ "\x7d"
  | unit => "Unit"

def describeItems : List Ty → List String
  | [] => []
  | t :: ts => describe t :: describeItems ts

def describeFields : List (String × Ty) → List String
  | [] => []
  | (n, t) :: fs => (n ++ ": " ++ describe t) :: describeFields fs

end

end Ty

inductive Value
  | bool (b : Bool)
  | i64 (v : Int64)
  | u64 (v : UInt64)
  | uuid (u : Octets 16)
  | bytes (b : Bytes)
  | str (s : String)
  | decimal (d : Decimal)
  | enum (enumId : EnumId) (variant : UInt32)
  | none
  | some (v : Value)
  | set (items : List Value)
  | tuple (items : List Value)
  | row (record : RecordId) (fields : List (String × Value))
  | struct (fields : List (String × Value))
  | unit

namespace Value

/-- The place of a kind of value among the kinds. -/
def rank : Value → ℕ
  | unit => 0
  | bool _ => 1
  | i64 _ => 2
  | u64 _ => 3
  | uuid _ => 4
  | bytes _ => 5
  | str _ => 6
  | decimal _ => 7
  | enum _ _ => 8
  | none => 9
  | some _ => 10
  | set _ => 11
  | tuple _ => 12
  | row _ _ => 13
  | struct _ => 14

def compareStr (a b : String) : Ordering := lexCmp compare (utf8 a) (utf8 b)

mutual

/-- The total order of values: by kind, and within a kind by contents. -/
def cmp : Value → Value → Ordering
  | bool a, bool b => compare a b
  | i64 a, i64 b => compare a.toInt b.toInt
  | u64 a, u64 b => compare a.toNat b.toNat
  | uuid a, uuid b => lexCmp compare a.val b.val
  | bytes a, bytes b => lexCmp compare a b
  | str a, str b => compareStr a b
  | decimal a, decimal b => (compare a.scale.toNat b.scale.toNat).then
      ((compare a.precision.toNat b.precision.toNat).then (compare a.coefficient b.coefficient))
  | enum e v, enum e' v' => (compare e.toNat e'.toNat).then (compare v.toNat v'.toNat)
  | some a, some b => cmp a b
  | set as, set bs => cmpItems as bs
  | tuple as, tuple bs => cmpItems as bs
  | row r fs, row r' fs' => (compare r.toNat r'.toNat).then (cmpFields fs fs')
  | struct fs, struct fs' => cmpFields fs fs'
  | a, b => compare a.rank b.rank

def cmpItems : List Value → List Value → Ordering
  | [], [] => .eq
  | [], _ :: _ => .lt
  | _ :: _, [] => .gt
  | a :: as, b :: bs => (cmp a b).then (cmpItems as bs)

def cmpFields : List (String × Value) → List (String × Value) → Ordering
  | [], [] => .eq
  | [], _ :: _ => .lt
  | _ :: _, [] => .gt
  | (k, a) :: as, (l, b) :: bs => ((compareStr k l).then (cmp a b)).then (cmpFields as bs)

end

mutual

/-- Append the key bytes of a value to what is written already. -/
def writeKey : Value → Bytes → CoreResult Bytes
  | bool b, w => .ok (w ++ (KeyElem.bool b).write)
  | i64 v, w => .ok (w ++ (KeyElem.i64 v).write)
  | u64 v, w => .ok (w ++ (KeyElem.u64 v).write)
  | uuid u, w => .ok (w ++ (KeyElem.id16 u).write)
  | bytes b, w => .ok (w ++ (KeyElem.bytes b).write)
  | str s, w => .ok (w ++ (KeyElem.bytes (utf8 s)).write)
  | decimal d, w => .ok (w ++ (KeyElem.decimal (BitVec.ofInt 128 d.coefficient)).write)
  | enum _ variant, w => .ok (w ++ (KeyElem.enum variant).write)
  | none, w => .ok (w ++ KeyElem.none.write)
  | some v, w => writeKey v (w ++ KeyElem.some.write)
  | tuple items, w =>
    writeKeys items (w ++ (KeyElem.tuple (UInt16.ofNat items.length)).write)
  | set _, _ | row _ _, _ | struct _, _ | unit, _ =>
    .error (.new .typeMismatch "value cannot be a key component")

def writeKeys : List Value → Bytes → CoreResult Bytes
  | [], w => .ok w
  | v :: vs, w => do
    let w ← writeKey v w
    writeKeys vs w

end

def keyBytes (v : Value) : CoreResult Bytes := v.writeKey []

/-- A value of another type. The text also shows the value itself, which is left out here. -/
def bad (ty : Ty) : CoreResult Unit :=
  .error (.new .typeMismatch ("value does not match type " ++ ty.describe))

mutual

/-- Validate a value against its declared type. -/
def checkType : Value → Ty → CoreResult Unit
  | bool _, .bool => .ok ()
  | i64 _, .i64 => .ok ()
  | u64 _, .u64 => .ok ()
  | uuid _, .uuid => .ok ()
  | unit, .unit => .ok ()
  | bytes b, .bytes n =>
    if n.toNat < b.length then .error (.new .typeMismatch "bytes exceed declared length")
    else .ok ()
  | str s, .string n =>
    if n.toNat < (utf8 s).length then
      .error (.new .typeMismatch "string exceeds declared UTF-8 length")
    else .ok ()
  | decimal d, .decimal p s =>
    if d.precision = p ∧ d.scale = s then .ok () else bad (.decimal p s)
  | enum enumId _, .enum e => if enumId = e then .ok () else bad (.enum e)
  | none, .option _ => .ok ()
  | some v, .option t => checkType v t
  | set items, .set t => checkAll items t
  | tuple items, .tuple ts =>
    if items.length ≠ ts.length then bad (.tuple ts) else checkTypes items ts
  | row record _, .row r => if record = r then .ok () else bad (.row r)
  | struct fs, .struct ts =>
    if fs.length ≠ ts.length then bad (.struct ts)
    else ts.forM fun f =>
      match (fieldChecks fs).lookup f.1 with
      | .some check => check f.2
      | .none => bad (.struct ts)
  | _, ty => bad ty

def checkAll : List Value → Ty → CoreResult Unit
  | [], _ => .ok ()
  | v :: vs, t => do
    checkType v t
    checkAll vs t

def checkTypes : List Value → List Ty → CoreResult Unit
  | v :: vs, t :: ts => do
    checkType v t
    checkTypes vs ts
  | _, _ => .ok ()

/-- The check of every field's value, by field name. -/
def fieldChecks : List (String × Value) → List (String × (Ty → CoreResult Unit))
  | [] => []
  | (k, v) :: fs => (k, fun t => checkType v t) :: fieldChecks fs

end

end Value

end CarolinaDB.Lang
