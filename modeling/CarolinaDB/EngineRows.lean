import CarolinaDB.RequestHome
import CarolinaDB.ValueCodec

/-!
# Rows of the interpreter in the store

A row is one version under the user namespace, the record and the primary key; its
value carries the key and the fields. The state of an invocation is loaded by one scan
for each record.
-/
namespace CarolinaDB.Runtime

open CanonValue Storage Lang

def recordPrefix (record : Lang.RecordId) : Bytes :=
  Namespace.user.toByte :: (KeyElem.u64 record).write

def rowKey (record : Lang.RecordId) (key : Value) : CoreResult LogicalKey :=
  key.writeKey (recordPrefix record)

/-- Ids are cut to the width of a field id. -/
def readRowFields : List (String × CanonValue) → Row → CoreResult Row
  | [], row => .ok row
  | (fid, v) :: fs, row => do
    let id ← parseCanonicalInt fid
    let w ← Value.fromCanon v
    readRowFields fs (row.insert (UInt64.ofInt id) w)

def decodeRow (bytes : Bytes) : CoreResult (Value × Row) := do
  let v ← CanonValue.decode bytes Limits.v1
  v.expectFields ["fields", "key", "kind"]
  if (← (← v.field "kind").asStr) ≠ "row.v1" then .error (.new .unsupportedFormat "row kind")
  else do
    let key ← Value.fromCanon (← v.field "key")
    let row ← readRowFields (← (← v.field "fields").asObject) ∅
    .ok (key, row)

/-- The least text above every text with a prefix. -/
def prefixUpperBound (b : Bytes) : Option Bytes :=
  match b.reverse.dropWhile (· = 0xff) with
  | [] => none
  | last :: rest => some (rest.reverse ++ [last + 1])

/-- A key that is there already keeps its first row. -/
def addRows (record : Lang.RecordId) : List (LogicalKey × Bytes) → State → CoreResult State
  | [], st => .ok st
  | (_, bytes) :: rows, st => do
    let (key, row) ← decodeRow bytes
    addRows record rows ((st.insert record key row).getD st)

/-- Every row of the records that a snapshot sees. A record without rows has an empty table. -/
def loadRecords (s : Store) (snap : LocalSnapshot) : List Lang.RecordId → State → CoreResult State
  | [], st => .ok st
  | record :: records, st => do
    let start := recordPrefix record
    let rows ← s.scan start (prefixUpperBound start) snap u64Max
    let st ← addRows record rows st
    loadRecords s snap records ⟨st.rows.insert record (st.rows[record]?.getD ∅)⟩

end CarolinaDB.Runtime
