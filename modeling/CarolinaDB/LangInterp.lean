import CarolinaDB.LangIr

/-!
# States of the reference interpreter

Rows by record and primary key. The fields of a struct and the elements of a set are
kept in order, so that equal values are equal lists.
-/
namespace CarolinaDB.Lang

abbrev Row := FiniteMap FieldId Value
abbrev Table := FiniteMap Value Row

/-- Record to primary key to field to value. A record whose rows were all deleted keeps an empty
table. -/
structure State where
  rows : FiniteMap RecordId Table

namespace State

def empty : State := ⟨∅⟩

def get (s : State) (record : RecordId) (key : Value) : Option Row :=
  s.rows[record]?.bind (·[key]?)

/-- Insert a new row, unless the key is taken. -/
def insert (s : State) (record : RecordId) (key : Value) (row : Row) : Option State :=
  let t := s.rows[record]?.getD ∅
  match t[key]? with
  | some _ => none
  | none => some ⟨s.rows.insert record (t.insert key row)⟩

def remove (s : State) (record : RecordId) (key : Value) : Option State :=
  match s.get record key with
  | some _ => some ⟨s.rows.insert record ((s.rows[record]?.getD ∅).erase key)⟩
  | none => none

end State

/-- Insert into fields kept in the order of their names. -/
def insertField : List (String × Value) → String → Value → List (String × Value)
  | [], name, v => [(name, v)]
  | (n, w) :: rest, name, v =>
    match Value.compareStr name n with
    | .lt => (name, v) :: (n, w) :: rest
    | .eq => (name, v) :: rest
    | .gt => (n, w) :: insertField rest name v

/-- Insert into a set kept in the order of values. -/
def insertValue : List Value → Value → List Value
  | [], v => [v]
  | w :: rest, v =>
    match v.cmp w with
    | .lt => v :: w :: rest
    | .eq => w :: rest
    | .gt => w :: insertValue rest v

end CarolinaDB.Lang
