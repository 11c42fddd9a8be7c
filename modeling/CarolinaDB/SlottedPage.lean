import CarolinaDB.PageHeader

/-!
# Slotted leaf pages

The bytes of a leaf: a slot array that grows up behind the header and records that grow
down from the end of the page. Inserting a record in place and rewriting the page from
the longer list of records read back the same.
-/
namespace CarolinaDB

section Overwrite

variable {bytes data : Bytes} {o o' n i : ℕ}

/-- The bytes with those from an offset on replaced, as far as they reach. -/
def overwrite (bytes : Bytes) (offset : ℕ) (data : Bytes) : Bytes :=
  bytes.mapIdx fun i b => if offset ≤ i then data.getD (i - offset) b else b

@[simp] lemma length_overwrite (bytes : Bytes) (o : ℕ) (data : Bytes) :
    (overwrite bytes o data).length = bytes.length := List.length_mapIdx

lemma getElem?_slice (bytes : Bytes) (o n i : ℕ) :
    (slice bytes o n)[i]? = if i < n then bytes[o + i]? else none := by
  rw [slice, List.getElem?_take]
  split_ifs
  · rw [List.getElem?_drop]
  · rfl

lemma slice_overwrite_of_disjoint (h : o' + n ≤ o ∨ o + data.length ≤ o') :
    slice (overwrite bytes o data) o' n = slice bytes o' n := by
  apply List.ext_getElem?
  intro i
  rw [getElem?_slice, getElem?_slice]
  split_ifs with hi
  · rw [overwrite, List.getElem?_mapIdx]
    cases bytes[o' + i]? with
    | none => rfl
    | some b =>
      rw [Option.map_some]
      split_ifs with ho
      · rw [List.getD_eq_default _ _ (by omega)]
      · rfl
  · rfl

lemma slice_overwrite (hin : i + n ≤ data.length) (h : o + data.length ≤ bytes.length) :
    slice (overwrite bytes o data) (o + i) n = slice data i n := by
  apply List.ext_getElem?
  intro j
  rw [getElem?_slice, getElem?_slice]
  split_ifs with hj
  · have hlt : o + i + j < bytes.length := by omega
    rw [overwrite, List.getElem?_mapIdx, List.getElem?_eq_getElem hlt, Option.map_some,
      if_pos (by omega), show o + i + j - o = i + j by omega, List.getD_eq_getElem _ _ (by omega),
      List.getElem?_eq_getElem]
  · rfl

end Overwrite

namespace Storage

/-- A copy into the page. -/
def PageBytes.put (page : PageBytes) (o : ℕ) (data : Bytes) : PageBytes :=
  ⟨overwrite page.val o data, by rw [length_overwrite, page.2]⟩

namespace Slotted

def slotCount (page : PageBytes) : ℕ := numberAt page.val 32 2
def freeStart (page : PageBytes) : ℕ := numberAt page.val 34 2
def freeEnd (page : PageBytes) : ℕ := numberAt page.val 36 2

def slotOffset (i : ℕ) : ℕ := pageHeaderLen + i * 4

/-- Start and length of a record. -/
def slot (page : PageBytes) (i : ℕ) : ℕ × ℕ :=
  (numberAt page.val (slotOffset i) 2, numberAt page.val (slotOffset i + 2) 2)

def record (page : PageBytes) (i : ℕ) : CoreResult Bytes :=
  let (start, len) := slot page i
  if start < pageHeaderLen ∨ pageSize < start + len then .error (corrupt "slot out of bounds")
  else .ok (slice page.val start len)

/-- `n` records from slot `i` on. -/
def readFrom (page : PageBytes) : ℕ → ℕ → CoreResult (List Bytes)
  | 0, _ => .ok []
  | n + 1, i => do
    let r ← record page i
    let rs ← readFrom page n (i + 1)
    .ok (r :: rs)

def readRecords (page : PageBytes) : CoreResult (List Bytes) := readFrom page (slotCount page) 0

def freeSpace (page : PageBytes) : ℕ := freeEnd page - freeStart page

def setSlot (page : PageBytes) (i start len : ℕ) : PageBytes :=
  (page.put (slotOffset i) (littleEndian 2 start)).put (slotOffset i + 2) (littleEndian 2 len)

/-- Records into the slots from `i` on, downwards from `end_`. -/
def fill : List Bytes → ℕ → ℕ → PageBytes → PageBytes × ℕ
  | [], _, end_, page => (page, end_)
  | r :: rs, i, end_, page =>
    let start := end_ - r.length
    fill rs (i + 1) start (setSlot (page.put start r) i start r.length)

/-- A header for `n` records that start at `end_`. -/
def header (h : PageHeader) (n end_ : ℕ) : PageHeader :=
  { h with itemCount := .ofNat n, freeStart := .ofNat (slotOffset n), freeEnd := .ofNat end_ }

/-- Rewrite a page from a list of records, unless they do not fit. -/
def writeRecords (page : PageBytes) (h : PageHeader) (records : List Bytes) : Option PageBytes :=
  if pageSize < pageHeaderLen + ((records.map List.length).sum + records.length * 4) then none
  else
    let (page, end_) := fill records 0 pageSize page
    some ((header h records.length end_).write page)

/-- A leaf record: the value is the inline value or the pointer to its chain. -/
structure Entry where
  key : Bytes
  seq : UInt64
  txnId : TxnId
  flags : UInt8
  metadata : Bytes
  value : Bytes

namespace Entry

def pos (e : Entry) : Pos := position e.key e.seq.toNat

def encode (e : Entry) : Bytes :=
  pack [(2, e.key.length), (8, e.seq.toNat)] ++ (e.txnId.val ++ (e.flags ::
    (pack [(2, e.metadata.length), (4, e.value.length)] ++ (e.key ++ (e.metadata ++ e.value)))))

lemma length_txnId {b : Bytes} (h : ¬ b.length < 49) : (slice b 10 32).length = 32 := by
  simp only [slice, List.length_take, List.length_drop]
  omega

def decode (b : Bytes) : CoreResult Entry :=
  if h : b.length < 49 then .error (corrupt "leaf entry too short")
  else
    let keyLen := numberAt b 0 2
    let metaLen := numberAt b 43 2
    let valueLen := numberAt b 45 4
    if b.length < 49 + keyLen + metaLen + valueLen ∨ maxKeyLen < keyLen then
      .error (corrupt "leaf entry bounds")
    else .ok {
      key := slice b 49 keyLen
      seq := .ofNat (numberAt b 2 8)
      txnId := ⟨slice b 10 32, length_txnId h⟩
      flags := b.getD 42 0
      metadata := slice b (49 + keyLen) metaLen
      value := slice b (49 + keyLen + metaLen) valueLen }

end Entry

/-- Where an entry belongs among the `n` records from slot `i` on, unless its version is there. -/
def findPosition (page : PageBytes) (p : Pos) : ℕ → ℕ → CoreResult (Option ℕ)
  | 0, i => .ok (some i)
  | n + 1, i => do
    let x ← Entry.decode (← record page i)
    if x.pos = p then .ok none
    else if p < x.pos then .ok (some i)
    else findPosition page p n (i + 1)

/-- What becomes of a leaf when an entry is inserted. -/
inductive LeafStep
  | duplicate
  | inPlace (page : PageBytes)
  /-- The page is rewritten from these records, or split. -/
  | rebuild (records : List Bytes)

/-- The record goes to the end of the free space; the slots behind its own move up. -/
def shifted (page : PageBytes) (n pos start : ℕ) (record : Bytes) : PageBytes :=
  let page := page.put start record
  let page := page.put (slotOffset (pos + 1))
    (slice page.val (slotOffset pos) (slotOffset n - slotOffset pos))
  setSlot page pos start record.length

def insertInPlace (page : PageBytes) (leaf lsn : UInt64) (pos : ℕ) (record : Bytes) :
    CoreResult PageBytes := do
  let h ← PageHeader.read page leaf
  let n := slotCount page
  let start := freeEnd page - record.length
  .ok ({ header h (n + 1) start with pageLsn := lsn }.write (shifted page n pos start record))

def insertLeaf (page : PageBytes) (leaf lsn : UInt64) (e : Entry) : CoreResult LeafStep := do
  match ← findPosition page e.pos (slotCount page) 0 with
  | none => .ok .duplicate
  | some pos =>
    if e.encode.length + 4 ≤ freeSpace page then do
      let page ← insertInPlace page leaf lsn pos e.encode
      .ok (.inPlace page)
    else do
      let records ← readRecords page
      .ok (.rebuild (records.insertIdx pos e.encode))

section Layout

variable {page page' : PageBytes} {o n i j start len : ℕ} {data : Bytes}

lemma slice_put_of_disjoint (h : o + n ≤ i ∨ i + data.length ≤ o) :
    slice (page.put i data).val o n = slice page.val o n := slice_overwrite_of_disjoint h

lemma slice_put (page : PageBytes) (hin : j + n ≤ data.length) (h : o + data.length ≤ pageSize) :
    slice (page.put o data).val (o + j) n = slice data j n :=
  slice_overwrite hin (h.trans_eq page.2.symm)

lemma slice_put_self (page : PageBytes) (h : o + data.length ≤ pageSize) :
    slice (page.put o data).val o data.length = data := by
  have hput := slice_put page (Nat.zero_add data.length).le h
  rw [Nat.add_zero] at hput
  rw [hput, slice, List.drop_zero, List.take_length]

lemma numberAt_put (page : PageBytes) {x : ℕ} (hx : x < 256 ^ n) (h : o + n ≤ pageSize) :
    numberAt (page.put o (littleEndian n x)).val o n = x := by
  have hput : slice (page.put o (littleEndian n x)).val o (littleEndian n x).length =
      littleEndian n x := slice_put_self page (by simpa using h)
  rw [length_littleEndian] at hput
  rw [numberAt, hput, fromLittleEndian_littleEndian, Nat.mod_eq_of_lt hx]

lemma slice_setSlot_of_disjoint (h : o + n ≤ slotOffset i ∨ slotOffset (i + 1) ≤ o) :
    slice (setSlot page i start len).val o n = slice page.val o n := by
  simp only [slotOffset] at h
  rw [setSlot, slice_put_of_disjoint, slice_put_of_disjoint] <;>
    simp only [length_littleEndian, slotOffset] <;> omega

lemma slot_setSlot (page : PageBytes) (i start len : ℕ) (hstart : start < 256 ^ 2)
    (hlen : len < 256 ^ 2) (hi : slotOffset (i + 1) ≤ pageSize) :
    slot (setSlot page i start len) i = (start, len) := by
  have hsize : slotOffset i + 4 ≤ pageSize := by
    simp only [slotOffset] at hi ⊢
    omega
  have hfirst : slice (setSlot page i start len).val (slotOffset i) 2 =
      slice (page.put (slotOffset i) (littleEndian 2 start)).val (slotOffset i) 2 :=
    slice_put_of_disjoint (.inl le_rfl)
  rw [slot, numberAt, hfirst, ← numberAt, numberAt_put page hstart (by omega), setSlot,
    numberAt_put _ hlen (by omega)]

/-- A header leaves what is behind it. -/
lemma slice_write (h : PageHeader) (ho : pageHeaderLen ≤ o) :
    slice (h.write page).val o n = slice page.val o n := by
  obtain ⟨k, rfl⟩ := Nat.exists_eq_add_of_le ho
  rw [slice, slice, ← List.drop_drop, ← List.drop_drop, PageHeader.drop_write]

lemma slice_slice (bytes : Bytes) {k : ℕ} (h : j + k ≤ n) :
    slice (slice bytes o n) j k = slice bytes (o + j) k := by
  rw [slice, slice, slice, List.drop_take, List.drop_drop, List.take_take, Nat.min_eq_left (by omega)]

/-- A slot is what its four bytes say. -/
lemma slot_congr (h : slice page'.val (slotOffset j) 4 = slice page.val (slotOffset i) 4) :
    slot page' j = slot page i := by
  have hfirst (page : PageBytes) (i : ℕ) : numberAt page.val (slotOffset i) 2 =
      numberAt (slice page.val (slotOffset i) 4) 0 2 := by
    rw [numberAt, numberAt, slice_slice _ (by decide), Nat.add_zero]
  have hsecond (page : PageBytes) (i : ℕ) : numberAt page.val (slotOffset i + 2) 2 =
      numberAt (slice page.val (slotOffset i) 4) 2 2 := by
    rw [numberAt, numberAt, slice_slice _ (by decide)]
  rw [slot, slot, hfirst, hfirst, hsecond, hsecond, h]

lemma slot_write (h : PageHeader) : slot (h.write page) i = slot page i :=
  slot_congr (slice_write h (Nat.le_add_right _ _))

lemma record_congr (hslot : slot page' j = slot page i)
    (hslice : slice page'.val (slot page i).1 (slot page i).2 =
      slice page.val (slot page i).1 (slot page i).2) : record page' j = record page i := by
  simp only [record, hslot, hslice]

lemma record_write (h : PageHeader) : record (h.write page) i = record page i := by
  by_cases hstart : (slot page i).1 < pageHeaderLen
  · simp only [record, slot_write, hstart, true_or, if_true]
  · exact record_congr (slot_write h) (slice_write h (not_lt.mp hstart))

lemma record_eq_ok (start : ℕ) (hslot : slot page i = (start, data.length))
    (hstart : pageHeaderLen ≤ start) (hend : start + data.length ≤ pageSize) (hdata : slice page.val start data.length = data) :
    record page i = .ok data := by
  simp only [record, hslot, hdata]
  rw [if_neg (by omega)]

lemma readFrom_congr (h : ∀ k < n, record page' (j + k) = record page (i + k)) :
    readFrom page' n j = readFrom page n i := by
  induction n generalizing i j with
  | zero => rfl
  | succ n ih =>
    have hhead := h 0 n.succ_pos
    rw [Nat.add_zero, Nat.add_zero] at hhead
    rw [readFrom, readFrom, hhead, ih fun k hk => ?_]
    have := h (k + 1) (Nat.succ_lt_succ hk)
    rwa [← Nat.add_assoc, ← Nat.add_assoc, Nat.add_right_comm, Nat.add_right_comm i] at this

lemma length_readFrom {rs : List Bytes} (h : readFrom page n i = .ok rs) : rs.length = n := by
  induction n generalizing i rs with
  | zero => cases h; rfl
  | succ n ih =>
    obtain ⟨r, -, h⟩ := CoreResult.bind_eq_ok h
    obtain ⟨rs', hrs', h⟩ := CoreResult.bind_eq_ok h
    cases h
    rw [List.length_cons, ih hrs']

lemma readFrom_append {rs ss : List Bytes} :
    readFrom page (rs.length + n) i = .ok (rs ++ ss) ↔
      readFrom page rs.length i = .ok rs ∧ readFrom page n (i + rs.length) = .ok ss := by
  induction rs generalizing i with
  | nil => simp [readFrom]
  | cons r rs ih =>
    rw [List.length_cons, Nat.add_right_comm, List.cons_append, readFrom, readFrom]
    simp only [CoreResult.bind_eq_ok_iff, Except.ok.injEq, List.cons.injEq]
    rw [show i + (rs.length + 1) = i + 1 + rs.length by omega]
    constructor
    · rintro ⟨_, hr, _, hrs, rfl, rfl⟩
      obtain ⟨hrs, hss⟩ := ih.mp hrs
      exact ⟨⟨_, hr, _, hrs, rfl, rfl⟩, hss⟩
    · rintro ⟨⟨_, hr, _, hrs, rfl, rfl⟩, hss⟩
      exact ⟨_, hr, _, ih.mpr ⟨hrs, hss⟩, rfl, rfl⟩

/-- Filling a page: nothing outside the slots and the room below `end_` changes, and the records are
read back. -/
lemma fill_spec (page : PageBytes) (rs : List Bytes) {end_ : ℕ} (hend : end_ ≤ pageSize)
    (hroom : slotOffset (i + rs.length) + (rs.map List.length).sum ≤ end_) :
    (fill rs i end_ page).2 = end_ - (rs.map List.length).sum ∧
    (∀ o k, o + k ≤ slotOffset i ∨ end_ ≤ o →
      slice (fill rs i end_ page).1.val o k = slice page.val o k) ∧
    readFrom (fill rs i end_ page).1 rs.length i = .ok rs := by
  induction rs generalizing i end_ page with
  | nil => exact ⟨rfl, fun _ _ _ => rfl, rfl⟩
  | cons r rs ih =>
    simp only [List.map_cons, List.sum_cons, List.length_cons, slotOffset, pageHeaderLen,
      pageSize] at hroom hend ih ⊢
    obtain ⟨start, rfl⟩ : ∃ start, end_ = start + r.length := ⟨end_ - r.length, by omega⟩
    rw [fill]
    simp only [Nat.add_sub_cancel]
    obtain ⟨hout, hframe, hread⟩ := @ih (i + 1) (setSlot (page.put start r) i start r.length) start
      (by omega) (by omega)
    refine ⟨by omega, fun o k hok => ?_, ?_⟩
    · rw [hframe o k (by omega),
        slice_setSlot_of_disjoint (by simp only [slotOffset, pageHeaderLen]; omega),
        slice_put_of_disjoint (by omega)]
    · have hslot := slot_setSlot (page.put start r) i start r.length (by omega) (by omega)
        (by simp only [slotOffset, pageHeaderLen, pageSize]; omega)
      have hrecord : record (fill rs (i + 1) start (setSlot (page.put start r) i start r.length)).1 i =
          .ok r := by
        refine record_eq_ok start ?_ ?_ hend ?_
        · rw [← hslot]
          exact slot_congr (hframe _ _ (.inl (by simp only [slotOffset, pageHeaderLen]; omega)))
        · simp only [pageHeaderLen]
          omega
        · rw [hframe _ _ (.inr le_rfl), slice_setSlot_of_disjoint
            (.inr (by simp only [slotOffset, pageHeaderLen]; omega)), slice_put_self _ hend]
      rw [readFrom, hrecord, hread]
      rfl

lemma counts_write (h : PageHeader) (page : PageBytes) :
    slotCount (h.write page) = h.itemCount.toNat ∧ freeStart (h.write page) = h.freeStart.toNat ∧
      freeEnd (h.write page) = h.freeEnd.toNat :=
  ⟨h.numberAt_write page 3 rfl h.itemCount.toNat_lt rfl,
    h.numberAt_write page 4 rfl h.freeStart.toNat_lt rfl,
    h.numberAt_write page 5 rfl h.freeEnd.toNat_lt rfl⟩

/-- Records that fit are read back from the rewritten page. -/
lemma readRecords_writeRecords (page : PageBytes) (h : PageHeader) {rs : List Bytes}
    (hfits : slotOffset rs.length + (rs.map List.length).sum ≤ pageSize) :
    ∃ w, writeRecords page h rs = some w ∧ readRecords w = .ok rs := by
  obtain ⟨-, -, hread⟩ := fill_spec page (i := 0) rs le_rfl (by rwa [Nat.zero_add])
  simp only [slotOffset, pageHeaderLen, pageSize] at hfits
  refine ⟨_, if_neg (by simp only [pageHeaderLen, pageSize]; omega), ?_⟩
  have hcount : rs.length < 2 ^ 16 := by omega
  rw [readRecords, (counts_write _ _).1]
  simp only [header, UInt16.toNat_ofNat_of_lt' hcount]
  rw [readFrom_congr fun k _ => record_write _, hread]

end Layout

section Insert

variable {page : PageBytes} {leaf lsn : UInt64} {rs : List Bytes} {e : Entry}

/-- A leaf page whose bookkeeping holds and whose records are entries in order. -/
structure ValidLeaf (page : PageBytes) (leaf : UInt64) (rs : List Bytes) : Prop where
  header : ∃ h, PageHeader.read page leaf = .ok h ∧ h.pageType = .leaf
  start : freeStart page = slotOffset (slotCount page)
  inside : ∀ i < slotCount page,
    freeEnd page ≤ (slot page i).1 ∧ (slot page i).1 + (slot page i).2 ≤ pageSize
  records : readRecords page = .ok rs
  total : freeEnd page + (rs.map List.length).sum ≤ pageSize
  sorted : ∃ es : List Entry, rs.map Entry.decode = es.map .ok ∧ (es.map Entry.pos).Pairwise (· < ·)

lemma exists_entry {es : List Entry} (h : rs.map Entry.decode = es.map .ok) {r : Bytes}
    (hr : r ∈ rs) : ∃ x ∈ es, Entry.decode r = .ok x := by
  have hmem : Entry.decode r ∈ es.map .ok := by
    rw [← h]
    exact List.mem_map_of_mem hr
  obtain ⟨x, hx, hrx⟩ := List.mem_map.mp hmem
  exact ⟨x, hx, hrx.symm⟩

lemma findPosition_spec {p : Pos} {n i : ℕ} {rs : List Bytes} {es : List Entry}
    (hread : readFrom page n i = .ok rs) (hdecode : rs.map Entry.decode = es.map .ok)
    (hsorted : (es.map Entry.pos).Pairwise (· < ·)) (hnew : ∀ x ∈ es, x.pos ≠ p) :
    ∃ before after fs gs, rs = before ++ after ∧ es = fs ++ gs ∧
      before.map Entry.decode = fs.map .ok ∧ after.map Entry.decode = gs.map .ok ∧ (∀ x ∈ fs, x.pos < p) ∧ (∀ x ∈ gs, p < x.pos) ∧
      findPosition page p n i = .ok (some (i + before.length)) := by
  induction n generalizing i rs es with
  | zero =>
    cases hread
    obtain rfl : es = [] := by simpa using hdecode.symm
    exact ⟨[], [], [], [], rfl, rfl, rfl, rfl, by simp, by simp, rfl⟩
  | succ n ih =>
    obtain ⟨r, hr, hread⟩ := CoreResult.bind_eq_ok hread
    obtain ⟨rs', hrs', hread⟩ := CoreResult.bind_eq_ok hread
    cases hread
    cases es with
    | nil => simp at hdecode
    | cons x es =>
      obtain ⟨hx, hdecode⟩ := List.cons.inj hdecode
      rw [List.map_cons, List.pairwise_cons] at hsorted
      obtain ⟨hne, hnew⟩ := List.forall_mem_cons.mp hnew
      rw [findPosition, hr, CoreResult.ok_bind, hx, CoreResult.ok_bind, if_neg hne]
      by_cases hlt : p < x.pos
      · rw [if_pos hlt]
        refine ⟨[], r :: rs', [], x :: es, rfl, rfl, rfl, ?_, by simp, ?_, rfl⟩
        · rw [List.map_cons, List.map_cons, hx, hdecode]
        · rw [List.forall_mem_cons]
          exact ⟨hlt, fun y hy => hlt.trans (hsorted.1 _ (List.mem_map_of_mem hy))⟩
      · obtain ⟨before, after, fs, gs, rfl, rfl, hb, ha, hfs, hgs, hfind⟩ :=
          ih hrs' hdecode hsorted.2 hnew
        rw [if_neg hlt, hfind]
        refine ⟨r :: before, after, x :: fs, gs, rfl, rfl, ?_, ha, ?_, hgs, ?_⟩
        · rw [List.map_cons, List.map_cons, hx, hb]
        · rw [List.forall_mem_cons]
          exact ⟨lt_of_le_of_ne (not_lt.mp hlt) hne, hfs⟩
        · rw [List.length_cons, Nat.add_right_comm, Nat.add_assoc]

section Shifted

variable {n pos start : ℕ} {record : Bytes} (hpos : pos ≤ n) (hstart : slotOffset (n + 1) ≤ start)
  (hend : start + record.length ≤ pageSize)
include hpos hstart

/-- What is outside the slots from `pos` on and the new record stays. -/
lemma slice_shifted {o k : ℕ} (h : o + k ≤ slotOffset pos ∨ start + record.length ≤ o) :
    slice (shifted page n pos start record).val o k = slice page.val o k := by
  simp only [slotOffset, pageHeaderLen, pageSize] at *
  rw [shifted, slice_setSlot_of_disjoint (by simp only [slotOffset, pageHeaderLen]; omega),
    slice_put_of_disjoint, slice_put_of_disjoint (by omega)]
  simp only [slotOffset, pageHeaderLen, slice, List.length_take]
  omega

lemma slot_shifted_of_lt {i : ℕ} (hi : i < pos) :
    slot (shifted page n pos start record) i = slot page i := by
  apply slot_congr
  apply slice_shifted hpos hstart
  simp only [slotOffset]
  omega

include hend

lemma slice_shifted_record :
    slice (shifted page n pos start record).val start record.length = record := by
  simp only [slotOffset, pageHeaderLen, pageSize] at *
  rw [shifted, slice_setSlot_of_disjoint (by simp only [slotOffset, pageHeaderLen]; omega),
    slice_put_of_disjoint, slice_put_self _ (by simpa [pageSize] using hend)]
  simp only [slotOffset, pageHeaderLen, slice, List.length_take]
  omega

lemma slot_shifted_self : slot (shifted page n pos start record) pos = (start, record.length) := by
  simp only [slotOffset, pageHeaderLen, pageSize] at *
  apply slot_setSlot
  · omega
  · omega
  · simp only [slotOffset, pageHeaderLen, pageSize]
    omega

lemma slot_shifted_succ {i : ℕ} (hi : pos ≤ i) (hin : i < n) :
    slot (shifted page n pos start record) (i + 1) = slot page i := by
  apply slot_congr
  simp only [slotOffset, pageHeaderLen, pageSize] at *
  have hcopied : (slice (page.put start record).val (slotOffset pos)
      (slotOffset n - slotOffset pos)).length = (n - pos) * 4 := by
    simp only [slice, List.length_take, List.length_drop, slotOffset, pageHeaderLen]
    rw [(page.put start record).2, pageSize]
    omega
  have hfrom : 64 + (i + 1) * 4 = slotOffset (pos + 1) + (i - pos) * 4 := by
    simp only [slotOffset, pageHeaderLen]
    omega
  rw [shifted, slice_setSlot_of_disjoint (by simp only [slotOffset, pageHeaderLen]; omega), hfrom,
    slice_put _ (by omega) (by rw [hcopied]; simp only [slotOffset, pageHeaderLen, pageSize]; omega),
    slice_slice _ (by simp only [slotOffset, pageHeaderLen]; omega),
    slice_put_of_disjoint (by simp only [slotOffset, pageHeaderLen]; omega)]
  congr 1
  simp only [slotOffset, pageHeaderLen]
  omega

/-- The slots of the longer page lie in the room above the new record. -/
lemma inside_shifted (hinside : ∀ i < n, start + record.length ≤ (slot page i).1 ∧
    (slot page i).1 + (slot page i).2 ≤ pageSize) {i : ℕ} (hi : i < n + 1) :
    start ≤ (slot (shifted page n pos start record) i).1 ∧
      (slot (shifted page n pos start record) i).1 + (slot (shifted page n pos start record) i).2 ≤
        pageSize := by
  rcases lt_trichotomy i pos with hlt | rfl | hgt
  · rw [slot_shifted_of_lt hpos hstart hlt]
    have := hinside i (by omega)
    omega
  · rw [slot_shifted_self hpos hstart hend]
    exact ⟨le_rfl, hend⟩
  · obtain ⟨i, rfl⟩ := Nat.exists_eq_succ_of_ne_zero (by omega : i ≠ 0)
    rw [slot_shifted_succ hpos hstart hend (by omega) (by omega)]
    have := hinside i (by omega)
    omega

/-- The records of the longer page: the old ones with the new one at its position. -/
lemma readFrom_shifted {before after : List Bytes} (hbefore : before.length = pos)
    (hafter : pos + after.length = n) (hread : readFrom page n 0 = .ok (before ++ after))
    (hinside : ∀ i < n, start + record.length ≤ (slot page i).1) :
    readFrom (shifted page n pos start record) (n + 1) 0 = .ok (before ++ record :: after) := by
  subst hbefore hafter
  obtain ⟨hbefore, hafter⟩ := readFrom_append.mp hread
  rw [Nat.add_assoc, readFrom_append]
  have hkept {i : ℕ} (hi : i < before.length + after.length) :
      slice (shifted page _ before.length start record).val (slot page i).1 (slot page i).2 =
        slice page.val (slot page i).1 (slot page i).2 :=
    slice_shifted hpos hstart (.inr (hinside i hi))
  constructor
  · rw [← hbefore]
    refine readFrom_congr fun k hk => ?_
    rw [Nat.zero_add]
    exact record_congr (slot_shifted_of_lt hpos hstart hk) (hkept (by omega))
  · have hslot : slot (shifted page _ before.length start record) before.length = _ :=
      slot_shifted_self hpos hstart hend
    have hrecord := record_eq_ok start hslot (le_trans (Nat.le_add_right _ _) hstart) hend
      (slice_shifted_record hpos hstart hend)
    have hrest : readFrom (shifted page (before.length + after.length) before.length start record)
        after.length (before.length + 1) = readFrom page after.length before.length := by
      refine readFrom_congr fun k hk => ?_
      rw [Nat.add_right_comm]
      exact record_congr (slot_shifted_succ hpos hstart hend (by omega) (by omega)) (hkept (by omega))
    rw [Nat.zero_add] at hafter ⊢
    rw [readFrom, hrecord, hrest, hafter]
    rfl

end Shifted

namespace Entry

/-- The part of an encoding before the key, which has a fixed length. -/
def fixed (e : Entry) : Bytes :=
  pack [(2, e.key.length), (8, e.seq.toNat)] ++ (e.txnId.val ++ (e.flags ::
    pack [(2, e.metadata.length), (4, e.value.length)]))

lemma length_fixed (e : Entry) : e.fixed.length = 49 := by
  rw [fixed, List.length_append, List.length_append, List.length_cons, length_pack, length_pack,
    e.txnId.2]
  rfl

lemma encode_eq (e : Entry) : e.encode = e.fixed ++ (e.key ++ (e.metadata ++ e.value)) := by
  simp only [encode, fixed, List.append_assoc, List.cons_append]

lemma length_encode (e : Entry) :
    e.encode.length = 49 + e.key.length + e.metadata.length + e.value.length := by
  rw [encode_eq, List.length_append, length_fixed, List.length_append, List.length_append]
  omega

/-- The lengths and the flags come after the first 42 bytes. -/
lemma encode_eq_flags (e : Entry) : ∃ front : Bytes, front.length = 42 ∧ e.encode = front ++
    ([e.flags] ++ (pack [(2, e.metadata.length), (4, e.value.length)] ++
      (e.key ++ (e.metadata ++ e.value)))) := by
  refine ⟨pack [(2, e.key.length), (8, e.seq.toNat)] ++ e.txnId.val, ?_, ?_⟩
  · rw [List.length_append, length_pack, e.txnId.2]
    rfl
  · rw [encode, List.append_assoc]
    rfl

theorem decode_encode (hkey : e.key.length ≤ maxKeyLen) (hlen : e.encode.length ≤ pageSize) :
    decode e.encode = .ok e := by
  have htotal := e.length_encode
  rw [htotal, pageSize] at hlen
  have hkeyLen : numberAt e.encode 0 2 = e.key.length :=
    numberAt_pack (a := []) [] [(8, e.seq.toNat)] (by omega) rfl
  have hseq : numberAt e.encode 2 8 = e.seq.toNat :=
    numberAt_pack (a := []) [(2, e.key.length)] [] e.seq.toNat_lt rfl
  have htxn : slice e.encode 10 32 = e.txnId.val := slice_middle (length_pack _) e.txnId.2 _
  obtain ⟨front, hfront, hencode⟩ := e.encode_eq_flags
  have hflags : e.encode.getD 42 0 = e.flags := by
    rw [hencode, List.getD_append_right _ _ _ _ hfront.le, hfront]
    rfl
  rw [← List.append_assoc] at hencode
  have hflagged : (front ++ [e.flags]).length = 43 := by rw [List.length_append, hfront]; rfl
  have hmetaLen : numberAt e.encode 43 2 = e.metadata.length := by
    rw [hencode]
    exact numberAt_pack [] [(4, e.value.length)] (by omega) hflagged
  have hvalueLen : numberAt e.encode 45 4 = e.value.length := by
    rw [hencode]
    exact numberAt_pack [(2, e.metadata.length)] [] (by omega) (congrArg (· + 2) hflagged)
  have hkeyBytes : slice e.encode 49 e.key.length = e.key := by
    rw [encode_eq]
    exact slice_middle e.length_fixed rfl _
  have hmetaBytes : slice e.encode (49 + e.key.length) e.metadata.length = e.metadata := by
    rw [encode_eq, ← List.append_assoc]
    exact slice_middle (by rw [List.length_append, length_fixed]) rfl _
  have hvalueBytes :
      slice e.encode (49 + e.key.length + e.metadata.length) e.value.length = e.value := by
    have := slice_middle (a := e.fixed ++ e.key ++ e.metadata) (b := e.value) rfl rfl []
    rw [List.length_append, List.length_append, length_fixed, List.append_nil, List.append_assoc,
      List.append_assoc, ← encode_eq] at this
    exact this
  rw [decode, dif_neg (by omega)]
  simp only [hkeyLen, hmetaLen, hvalueLen, hseq, htxn, hflags, hkeyBytes, hmetaBytes, hvalueBytes,
    UInt64.ofNat_toNat]
  rw [if_neg (by omega)]

end Entry

/-- Inserting in place a record for which there is room. -/
lemma ValidLeaf.insertInPlace {before after : List Bytes} {record : Bytes}
    (h : ValidLeaf page leaf (before ++ after)) (lsn : UInt64)
    (hfits : record.length + 4 ≤ freeSpace page)
    (hsorted : ∃ es : List Entry, (before ++ record :: after).map Entry.decode = es.map .ok ∧
      (es.map Entry.pos).Pairwise (· < ·)) :
    ∃ page', insertInPlace page leaf lsn before.length record = .ok page' ∧
      ValidLeaf page' leaf (before ++ record :: after) := by
  obtain ⟨hd, hread, htype⟩ := h.header
  have hcount := length_readFrom h.records
  have htotal := h.total
  have hbegin := h.start
  have hinside := h.inside
  rw [freeSpace] at hfits
  obtain ⟨start, hstart⟩ : ∃ start, freeEnd page = start + record.length :=
    ⟨freeEnd page - record.length, by omega⟩
  have hroom : slotOffset (slotCount page + 1) ≤ start := by
    simp only [slotOffset] at hbegin ⊢
    omega
  have hend : start + record.length ≤ pageSize := by omega
  rw [List.length_append] at hcount
  rw [hstart] at hinside htotal
  have hpos : before.length ≤ slotCount page := by omega
  have hsmall : slotOffset (slotCount page + 1) < 2 ^ 16 ∧ start < 2 ^ 16 ∧
      slotCount page + 1 < 2 ^ 16 := by
    simp only [slotOffset, pageHeaderLen, pageSize] at hroom hend ⊢
    omega
  rw [Slotted.insertInPlace, hread, CoreResult.ok_bind, hstart, Nat.add_sub_cancel]
  refine ⟨_, rfl, ?_⟩
  obtain ⟨written, hwritten⟩ : ∃ written : PageHeader,
      written = { Slotted.header hd (slotCount page + 1) start with pageLsn := lsn } := ⟨_, rfl⟩
  have hitems : written.itemCount.toNat = slotCount page + 1 := by
    rw [hwritten]
    exact UInt16.toNat_ofNat_of_lt' hsmall.2.2
  have hlow : written.freeStart.toNat = slotOffset (slotCount page + 1) := by
    rw [hwritten]
    exact UInt16.toNat_ofNat_of_lt' hsmall.1
  have hhigh : written.freeEnd.toNat = start := by
    rw [hwritten]
    exact UInt16.toNat_ofNat_of_lt' hsmall.2.1
  have hid : written.pageId = leaf := by
    rw [hwritten]
    exact (PageHeader.of_read_eq_ok hread).1
  have hleaf : written.pageType = .leaf := by
    rw [hwritten]
    exact htype
  have hbounded : written.Bounded := by
    rw [PageHeader.Bounded, UInt16.lt_iff_toNat_lt, hlow, hhigh]
    simp only [slotOffset] at hroom ⊢
    omega
  rw [← hwritten]
  obtain ⟨hslots, hfree, hfreeEnd⟩ :=
    counts_write written (shifted page (slotCount page) before.length start record)
  rw [hitems] at hslots
  refine ⟨⟨written, ?_, hleaf⟩, ?_, ?_, ?_, ?_, hsorted⟩
  · rw [← hid]
    exact PageHeader.read_write written _ hbounded
  · rw [hfree, hslots, hlow]
  · intro i hi
    rw [hslots] at hi
    rw [slot_write, hfreeEnd, hhigh]
    exact inside_shifted hpos hroom hend hinside hi
  · rw [readRecords, hslots, readFrom_congr fun k _ => record_write written]
    exact readFrom_shifted hpos hroom hend rfl hcount h.records fun i hi => (hinside i hi).1
  · rw [hfreeEnd, hhigh]
    simp only [List.map_append, List.map_cons, List.sum_append, List.sum_cons] at htotal ⊢
    omega

/-- A fresh leaf is valid and empty. -/
lemma ValidLeaf.new (page : PageBytes) (leaf : UInt64) :
    ValidLeaf ((PageHeader.new .leaf leaf).write page) leaf [] := by
  obtain ⟨hslots, hfree, hfreeEnd⟩ := counts_write (PageHeader.new .leaf leaf) page
  have hslots : slotCount ((PageHeader.new .leaf leaf).write page) = 0 := hslots
  refine ⟨⟨_, PageHeader.read_write _ page ?_, rfl⟩, ?_, ?_, ?_, ?_, ⟨[], rfl, .nil⟩⟩
  · exact (by decide : ¬ ((64 : UInt16).toNat < pageHeaderLen ∨ pageSize < (8192 : UInt16).toNat ∨
      (8192 : UInt16) < 64))
  · rw [hfree, hslots]
    rfl
  · rw [hslots]
    simp
  · rw [readRecords, hslots]
    rfl
  · rw [hfreeEnd]
    exact le_refl pageSize

end Insert

end Slotted

end Storage

end CarolinaDB
