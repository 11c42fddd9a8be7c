import CarolinaDB.BTreeInsert
import CarolinaDB.Loop

/-!
# The versioned B+tree

A tree carries the proof that its pages are ordered and packed, so no operation
meets an empty inner page or a misplaced separator. Reads walk the leaves with a
guard on the number of passes, as the code does.
-/
namespace CarolinaDB.Storage

open PageTree Loop

variable {V : Type} [ByteLen V]

def EntryBound (e : LeafEntry V) : Prop := e.key.length ≤ maxKeyLen ∧ e.seq ≤ u64Max

def SepBound (s : Pos) : Prop := (ofLex s).1.length ≤ maxKeyLen

structure BTree (V : Type) [ByteLen V] where
  height : ℕ
  root : TreePage V height
  ordered : InOrder ⊥ ⊤ root
  packed : Packed EntryBound SepBound root

/-- The entry written for a version; a long value goes to an overflow chain. -/
def newEntry (key : Bytes) (seq : UInt64) (txnId : TxnId) (flags : UInt8) (metadata : Bytes)
    (value : V) : LeafEntry V :=
  if maxInlineValue < byteLen value then
    ⟨key, seq.toNat, txnId, flags ||| entryFlagOverflow, metadata, .overflow value⟩
  else ⟨key, seq.toNat, txnId, flags, metadata, .inline value⟩

section NewEntry
variable (key : Bytes) (seq : UInt64) (txnId : TxnId) (flags : UInt8) (metadata : Bytes) (value : V)

@[simp] lemma newEntry_key : (newEntry key seq txnId flags metadata value).key = key := by
  unfold newEntry
  split <;> rfl

@[simp] lemma newEntry_seq : (newEntry key seq txnId flags metadata value).seq = seq.toNat := by
  unfold newEntry
  split <;> rfl

lemma newEntry_pos :
    (newEntry key seq txnId flags metadata value).pos = position key seq.toNat := by
  simp [LeafEntry.pos]

lemma entryBound_newEntry (h : key.length ≤ maxKeyLen) :
    EntryBound (newEntry key seq txnId flags metadata value) := by
  have := seq.toNat_lt
  refine ⟨by simpa using h, ?_⟩
  rw [newEntry_seq, u64Max]
  omega

end NewEntry

omit [ByteLen V] in
lemma sepBound_of_entryBound (e : LeafEntry V) (h : EntryBound e) : SepBound e.pos := h.1

lemma sepBound_leftmost : SepBound leftmost := Nat.zero_le _

lemma separatorLen_le {s : Pos} (h : SepBound s) : separatorLen s ≤ 18 + maxKeyLen :=
  Nat.add_le_add_left h 18

/-- Whether a leaf has an entry at the position; its entries are increasing. -/
def findIn (p : Pos) : List (LeafEntry V) → Bool
  | [] => false
  | x :: xs => if x.pos = p then true else if p < x.pos then false else findIn p xs

/-- Look for the newest version of `key` up to `visible` in one leaf; `none` is undecided. -/
def searchLeaf (key : Bytes) (visible : ℕ) : List (LeafEntry V) → Option (Option (LeafEntry V))
  | [] => none
  | e :: es =>
    if e.key < key then searchLeaf key visible es
    else if key < e.key then some none
    else if e.seq ≤ visible then some (some e)
    else searchLeaf key visible es

structure ScanState (V : Type) where
  cursor : Pos
  currentKey : Option Bytes
  out : List (LeafEntry V)

/-- The first position after an entry. -/
def nextPosition (e : LeafEntry V) : Pos :=
  if e.seq = 0 then position (e.key ++ [0]) u64Max else position e.key (e.seq - 1)

/-- One leaf of a scan. The result is what was emitted if the scan ends here, else the new state
and whether an entry at or after the cursor was met. -/
def scanLeaf (end_ : Option Bytes) (visible limit : ℕ) :
    List (LeafEntry V) → ScanState V → Bool → (ScanState V × Bool) ⊕ List (LeafEntry V)
  | [], s, advanced => .inl (s, advanced)
  | e :: es, s, advanced =>
    if e.pos < s.cursor then scanLeaf end_ visible limit es s advanced
    else if end_.any (fun k => ¬ e.key < k) then .inr s.out
    else if s.currentKey = some e.key then
      scanLeaf end_ visible limit es { s with cursor := nextPosition e } true
    else if e.seq ≤ visible then
      if limit ≤ (s.out ++ [e]).length then .inr (s.out ++ [e])
      else scanLeaf end_ visible limit es ⟨nextPosition e, some e.key, s.out ++ [e]⟩ true
    else scanLeaf end_ visible limit es { s with cursor := nextPosition e } true

structure VerifyStats where
  pages : ℕ := 0
  leaves : ℕ := 0
  internals : ℕ := 0
  entries : ℕ := 0
  deriving DecidableEq, Repr

/-- The checks on the entries of a leaf. `last` is the position of the entry before. -/
def verifyEntries (low high : Option Pos) :
    List (LeafEntry V) → VerifyStats → Option Pos → CoreResult (VerifyStats × Option Pos)
  | [], stats, last => .ok (stats, last)
  | e :: es, stats, last =>
    if low.any (e.pos < ·) then .error (corrupt "leaf entry below separator")
    else if high.any (fun h => ¬ e.pos < h) then
      .error (corrupt "leaf entry at/above upper separator")
    else if last.any (fun l => ¬ l < e.pos) then
      .error (corrupt "leaf entries out of physical order or duplicated")
    else if e.flags &&& entryFlagOverflow ≠ 0 then
      match e.readValue with
      | .error err => .error err
      | .ok _ => verifyEntries low high es { stats with entries := stats.entries + 1 } (some e.pos)
    else verifyEntries low high es { stats with entries := stats.entries + 1 } (some e.pos)

/-- Neighbouring separators increase; the one before everything is exempt. -/
def separatorsIncrease : List Pos → Bool
  | s :: s' :: rest => (s = leftmost ∨ s < s') && separatorsIncrease (s' :: rest)
  | _ => true

/-- Check the children in turn, each between its own separator and the next one. -/
def verifyChildren {σ β : Type} (check : Option Pos → Option Pos → β → σ → CoreResult σ)
    (high : Option Pos) : Option Pos → List (Pos × β) → σ → CoreResult σ
  | _, [], s => .ok s
  | low, [c], s => check low high c.2 s
  | low, c :: d :: cs, s =>
    match check low (some d.1) c.2 s with
    | .error err => .error err
    | .ok s' => verifyChildren check high (some d.1) (d :: cs) s'

def verifyPage : {n : ℕ} → ℕ → Option Pos → Option Pos → TreePage V n → VerifyStats × Option Pos →
    CoreResult (VerifyStats × Option Pos)
  | 0, depth, low, high, es, (stats, last) =>
    if 64 < depth then .error (corrupt "tree too deep")
    else
      verifyEntries low high es
        { stats with pages := stats.pages + 1, leaves := stats.leaves + 1 } last
  | _+1, depth, low, high, cs, (stats, last) =>
    if 64 < depth then .error (corrupt "tree too deep")
    else
      match cs with
      | [] => .error (corrupt "empty internal page")
      | c :: cs =>
        if c.1 ≠ leftmost then
          .error (corrupt "first internal entry must be the leftmost separator")
        else if ¬ separatorsIncrease ((c :: cs).map Prod.fst) then
          .error (corrupt "separators not increasing")
        else
          verifyChildren (fun lo hi p s => verifyPage (depth + 1) lo hi p s) high low (c :: cs)
            ({ stats with pages := stats.pages + 1, internals := stats.internals + 1 }, last)

namespace BTree

def create : BTree V where
  height := 0
  root := []
  ordered := ⟨bot_lt_top, List.Pairwise.nil, by simp⟩
  packed := ⟨by simp [fitPage, pageHeaderLen, pageSize], by simp⟩

def entries (t : BTree V) : List (LeafEntry V) := PageTree.entries t.root

/-- The path to the leaf of a position, at most sixty-four pages long. -/
def descend (t : BTree V) (p : Pos) : CoreResult (List ℕ) :=
  if t.height < 64 then
    match descendPath t.root p with
    | some path => .ok path
    | none => .error (corrupt "empty internal page")
  else .error (corrupt "tree too deep")

def findVersion (t : BTree V) (key : Bytes) (seq : UInt64) : CoreResult Bool :=
  match t.descend (position key seq.toNat) with
  | .error err => .error err
  | .ok path =>
    match leafAt t.root path with
    | none => .error (corrupt "unexpected page type in tree path")
    | some es => .ok (findIn (position key seq.toNat) es)

section Install
variable {t : BTree V} {e : LeafEntry V}

/-- What an insert into the root leaves is in order and packed. -/
lemma insertInto_root {out : Outcome V t.height} (he : EntryBound e)
    (h : insertInto e t.root = .ok out) :
    out.Good e ⊥ ⊤ t.root ∧ out.Packed EntryBound SepBound :=
  ⟨insertInto_good t.ordered bot_le Bound.of_lt_top h,
    insertInto_packed sepBound_of_entryBound sepBound_leftmost (fun _ => separatorLen_le) he
      t.ordered t.packed bot_le Bound.of_lt_top h⟩

variable {p left right : TreePage V t.height} {sep : Pos}

lemma ordered_written (he : EntryBound e) (h : insertInto e t.root = .ok (.written p)) :
    InOrder ⊥ ⊤ p :=
  (insertInto_root he h).1.1

lemma packed_written (he : EntryBound e) (h : insertInto e t.root = .ok (.written p)) :
    Packed EntryBound SepBound p :=
  (insertInto_root he h).2

lemma ordered_split (he : EntryBound e) (h : insertInto e t.root = .ok (.split left sep right)) :
    InOrder (n := t.height + 1) ⊥ ⊤ [(leftmost, left), (sep, right)] := by
  obtain ⟨hgood, -⟩ := insertInto_root he h
  exact ⟨rfl, hgood.1, hgood.2.1⟩

lemma packed_split (he : EntryBound e) (h : insertInto e t.root = .ok (.split left sep right)) :
    Packed (n := t.height + 1) EntryBound SepBound [(leftmost, left), (sep, right)] := by
  obtain ⟨-, hpacked⟩ := insertInto_root he h
  refine ⟨le_rfl, ?_, ?_⟩
  · have := separatorLen_le hpacked.1
    simp only [maxKeyLen] at this
    simp [fitPage, pageHeaderLen, pageSize, separatorLen, leftmost, position] at this ⊢
    omega
  · intro c hc
    simp only [List.mem_cons, List.not_mem_nil, or_false] at hc
    rcases hc with rfl | rfl
    · exact ⟨sepBound_leftmost, hpacked.2.1⟩
    · exact ⟨hpacked.1, hpacked.2.2⟩

end Install

/-- The tree with an entry inserted. A root that splits gets a new root over both halves. -/
def install (t : BTree V) (e : LeafEntry V) (he : EntryBound e) : CoreResult (Bool × BTree V) :=
  match h : insertInto e t.root with
  | .error err => .error err
  | .ok .kept => .ok (false, t)
  | .ok (.written p) => .ok (true, ⟨t.height, p, ordered_written he h, packed_written he h⟩)
  | .ok (.split left sep right) =>
    .ok (true, ⟨t.height + 1, [(leftmost, left), (sep, right)], ordered_split he h,
      packed_split he h⟩)

/-- Insert a version; `false` says that the position is taken and nothing changed. -/
def insertVersion (t : BTree V) (key : Bytes) (seq : UInt64) (txnId : TxnId) (flags : UInt8)
    (metadata : Bytes) (value : V) : CoreResult (Bool × BTree V) :=
  if hk : maxKeyLen < key.length then .error (.new .keyTooLarge "key exceeds MAX_KEY_LEN")
  else if maxValueLen < byteLen value then
    .error (.new .valueTooLarge "value exceeds MAX_VALUE_LEN")
  else
    -- a long value is only written once its version is known to be new
    match if maxInlineValue < byteLen value then t.findVersion key seq else .ok false with
    | .error err => .error err
    | .ok true => .ok (false, t)
    | .ok false =>
      match t.descend (position key seq.toNat) with
      | .error err => .error err
      | .ok _ =>
        t.install (newEntry key seq txnId flags metadata value)
          (entryBound_newEntry key seq txnId flags metadata value (not_lt.mp hk))

def getStep (t : BTree V) (key : Bytes) (visible : ℕ) (path : List ℕ) :
    List ℕ ⊕ CoreResult (Option (LeafEntry V)) :=
  match leafAt t.root path with
  | none => .inr (.error (corrupt "unexpected page type in tree path"))
  | some es =>
    match searchLeaf key visible es with
    | some found => .inr (.ok found)
    | none =>
      if es.getLast?.any (fun e => key < e.key) then .inr (.ok none)
      else
        match rightPath t.root path with
        | some next => .inl next
        | none => .inr (.ok none)

/-- The newest version of `key` not above `visible`, tombstones included. -/
def getVersion (t : BTree V) (key : Bytes) (visible : ℕ) : CoreResult (Option (LeafEntry V)) :=
  match t.descend (position key u64Max) with
  | .error err => .error err
  | .ok path => (loop (t.getStep key visible) 1000000 path).getD (.error (corrupt "scan loop"))

def scanStep (t : BTree V) (end_ : Option Bytes) (visible limit : ℕ) (s : ScanState V × List ℕ) :
    (ScanState V × List ℕ) ⊕ CoreResult (List (LeafEntry V)) :=
  match leafAt t.root s.2 with
  | none => .inr (.error (corrupt "unexpected page type in tree path"))
  | some es =>
    match scanLeaf end_ visible limit es s.1 false with
    | .inr out => .inr (.ok out)
    | .inl (s', false) =>
      match rightPath t.root s.2 with
      | some next => .inl (s', next)
      | none => .inr (.ok s'.out)
    | .inl (s', true) =>
      match t.descend s'.cursor with
      | .error err => .inr (.error err)
      | .ok path => .inl (s', path)

/-- Newest visible versions of the keys from `start` up to `end_`, one entry per key. -/
def scanVisible (t : BTree V) (start : Bytes) (end_ : Option Bytes) (visible limit : ℕ) :
    CoreResult (List (LeafEntry V)) :=
  match t.descend (position start u64Max) with
  | .error err => .error err
  | .ok path =>
    (loop (t.scanStep end_ visible limit) 10000000 (⟨position start u64Max, none, []⟩, path)).getD
      (.error (corrupt "scan loop"))

def verify (t : BTree V) : CoreResult VerifyStats :=
  (verifyPage 0 none none t.root ({}, none)).map Prod.fst

end BTree

end CarolinaDB.Storage
