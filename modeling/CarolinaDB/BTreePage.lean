import CarolinaDB.Bytes
import CarolinaDB.CoreError
import CarolinaDB.PageTreeWalk

/-!
# Pages of the versioned B+tree

Leaf entries are ordered by key, and by descending sequence within a key.
Inserting goes down to a leaf, rewrites it or splits it by bytes, and inserts the
separator of the new page on the way up. Page ids and the buffer pool are not
represented: a child is the page it points to, an overflow chain the value it holds.
-/
namespace CarolinaDB.Storage

open PageTree

def pageSize : ℕ := 8192
def pageHeaderLen : ℕ := 64
def maxInlineValue : ℕ := 1024
def maxKeyLen : ℕ := 2048
def maxValueLen : ℕ := 1024 * 1024
def u64Max : ℕ := 2^64 - 1
def entryFlagTombstone : UInt8 := 0x01
def entryFlagOverflow : UInt8 := 0x80

abbrev TxnId := Octets 32

class ByteLen (V : Type) where
  byteLen : V → ℕ

export ByteLen (byteLen)

instance : ByteLen Bytes := ⟨List.length⟩

/-- What a leaf record holds for its value: the value, or a pointer to the chain that does. -/
inductive Stored (V : Type)
  | inline (v : V)
  | overflow (v : V)
  deriving DecidableEq, Repr

structure LeafEntry (V : Type) where
  key : Bytes
  seq : ℕ
  txnId : TxnId
  flags : UInt8
  metadata : Bytes
  value : Stored V
  deriving DecidableEq, Repr

/-- Key ascending, sequence descending. -/
abbrev Pos := Bytes ×ₗ ℕᵒᵈ

def position (key : Bytes) (seq : ℕ) : Pos := toLex (key, OrderDual.toDual seq)

/-- The separator of the first child, before every entry. -/
def leftmost : Pos := position [] u64Max

def corrupt (message : String) : CoreError := .new .corruption message

section Order
variable {k k' : Bytes} {s s' : ℕ}

lemma position_lt : position k s < position k' s' ↔ k < k' ∨ k = k' ∧ s' < s := by
  rw [position, position, Prod.Lex.toLex_lt_toLex]
  exact Iff.rfl

lemma position_le : position k s ≤ position k' s' ↔ k < k' ∨ k = k' ∧ s' ≤ s := by
  rw [position, position, Prod.Lex.toLex_le_toLex]
  exact Iff.rfl

lemma position_inj : position k s = position k' s' ↔ k = k' ∧ s = s' := by
  simp [position]

end Order

variable {V : Type} [ByteLen V] {n : ℕ}

namespace LeafEntry

def pos (e : LeafEntry V) : Pos := position e.key e.seq

def isTombstone (e : LeafEntry V) : Bool := e.flags &&& entryFlagTombstone ≠ 0

/-- Length of the record `encode` writes. -/
def encodedLen (e : LeafEntry V) : ℕ :=
  49 + e.key.length + e.metadata.length +
    match e.value with
    | .inline v => byteLen v
    | .overflow _ => 12

/-- Follow the overflow chain of a value. Only the length check of a pointer that no chain was
written for is represented. -/
def readValue (e : LeafEntry V) : CoreResult V :=
  match e.value with
  | .inline v =>
    if e.flags &&& entryFlagOverflow = 0 then .ok v else .error (corrupt "overflow pointer length")
  | .overflow v =>
    if e.flags &&& entryFlagOverflow = 0 then .error (corrupt "overflow length mismatch") else .ok v

end LeafEntry

abbrev TreePage (V : Type) (n : ℕ) := Page Pos (LeafEntry V) n

/-- Length of the record of a separator and its child pointer. -/
def separatorLen (s : Pos) : ℕ := 18 + (ofLex s).1.length

/-- Records of these lengths, with a slot of four bytes each, fit behind the page header. -/
def fitPage (lens : List ℕ) : Bool := pageHeaderLen + (lens.sum + lens.length * 4) ≤ pageSize

inductive Outcome (V : Type) (n : ℕ)
  | kept
  | written (p : TreePage V n)
  | split (left : TreePage V n) (sep : Pos) (right : TreePage V n)

/-- The index of the record that brings the left half to half of the bytes. -/
def halfIndex (half : ℕ) : ℕ → ℕ → List ℕ → Option ℕ
  | _, _, [] => none
  | acc, i, len :: lens =>
    if half ≤ acc + (len + 4) then some i else halfIndex half (acc + (len + 4)) (i + 1) lens

def splitPoint (lens : List ℕ) : ℕ :=
  match halfIndex ((lens.map (· + 4)).sum / 2) 0 0 lens with
  | some i => max (min (i + 1) (lens.length - 1)) 1
  | none => lens.length / 2

/-- Put an entry in its place among the records of a leaf, unless its version is there. -/
def placeIn (e : LeafEntry V) : List (LeafEntry V) → Option (List (LeafEntry V))
  | [] => some [e]
  | x :: xs =>
    if x.pos = e.pos then none
    else if e.pos < x.pos then some (e :: x :: xs)
    else (placeIn e xs).map (x :: ·)

def rewriteOrSplit (records : List (LeafEntry V)) : CoreResult (Outcome V 0) :=
  if fitPage (records.map LeafEntry.encodedLen) then .ok (.written records)
  else
    let k := splitPoint (records.map LeafEntry.encodedLen)
    match records.drop k with
    | [] => .error .panicked
    | sep :: rest =>
      if ¬ fitPage ((records.take k).map LeafEntry.encodedLen) then
        .error (corrupt "left half does not fit after split")
      else if ¬ fitPage ((sep :: rest).map LeafEntry.encodedLen) then
        .error (.new .valueTooLarge "entry does not fit in an empty page")
      else .ok (.split (records.take k) sep.pos (sep :: rest))

/-- Insert a separator and its page after child `i`; the middle record of a full page moves up. -/
def insertSeparator (cs : List (Pos × TreePage V n)) (i : ℕ) (sep : Pos) (right : TreePage V n) :
    CoreResult (Outcome V (n+1)) :=
  let records := cs.insertIdx (i + 1) (sep, right)
  if fitPage (records.map fun c => separatorLen c.1) then .ok (.written records)
  else
    let k := records.length / 2
    match records.drop k with
    | [] => .error .panicked
    | mid :: rest =>
      if ¬ fitPage ((records.take k).map fun c => separatorLen c.1) then
        .error (corrupt "internal left half does not fit")
      else if ¬ fitPage (((leftmost, mid.2) :: rest).map fun c => separatorLen c.1) then
        .error (corrupt "internal right half does not fit")
      else .ok (.split (records.take k) mid.1 ((leftmost, mid.2) :: rest))

def insertInto (e : LeafEntry V) : {n : ℕ} → TreePage V n → CoreResult (Outcome V n)
  | 0, es =>
    match placeIn e es with
    | none => .ok .kept
    | some records => rewriteOrSplit records
  | _+1, cs =>
    let i := childIndex cs e.pos
    match cs[i]? with
    | none => .error (corrupt "empty internal page")
    | some c =>
      match insertInto e c.2 with
      | .error err => .error err
      | .ok .kept => .ok .kept
      | .ok (.written p) => .ok (.written (List.set cs i (c.1, p)))
      | .ok (.split left sep right) => insertSeparator (List.set cs i (c.1, left)) i sep right

/-- Pages stay within their size, inner pages have two children at least, none of them empty,
and entries and separators satisfy what is asked of each. -/
def Packed (onEntry : LeafEntry V → Prop) (onSep : Pos → Prop) : {n : ℕ} → TreePage V n → Prop
  | 0, es => fitPage (List.map LeafEntry.encodedLen es) ∧ ∀ e : LeafEntry V, e ∈ es → onEntry e
  | n+1, cs => 2 ≤ List.length cs ∧ fitPage (List.map (fun c => separatorLen c.1) cs) ∧
      ∀ c : Pos × TreePage V n, c ∈ cs → onSep c.1 ∧ entries c.2 ≠ [] ∧ Packed onEntry onSep c.2

end CarolinaDB.Storage
