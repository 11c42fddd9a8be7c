import CarolinaDB.BTreePage
import CarolinaDB.Crc32c
import CarolinaDB.LittleEndian

/-!
# Page headers

Every page starts with a header of sixty-four bytes and a checksum over the whole page. A header is
read back from the page it was written to, with the bytes behind it as they were.
-/
namespace CarolinaDB.Storage

def pageFormatVersion : ℕ := 1
def pageMagic : Bytes := [0x43, 0x44, 0x42, 0x50]

abbrev PageBytes := Octets pageSize

inductive PageType
  | internal | leaf | freeList | metaPage | overflow
  deriving DecidableEq, Repr

namespace PageType

def toByte : PageType → UInt8
  | internal => 1
  | leaf => 2
  | freeList => 3
  | metaPage => 4
  | overflow => 5

def all : List PageType := [internal, leaf, freeList, metaPage, overflow]

def fromByte (v : UInt8) : CoreResult PageType :=
  match all.find? (fun pageType => pageType.toByte = v) with
  | some pageType => .ok pageType
  | none => .error (corrupt ("unknown page type " ++ toString v))

lemma fromByte_toByte (pageType : PageType) : fromByte pageType.toByte = .ok pageType := by
  cases pageType <;> rfl

end PageType

structure PageHeader where
  pageType : PageType
  flags : UInt8
  pageId : UInt64
  pageGeneration : UInt64
  pageLsn : UInt64
  itemCount : UInt16
  freeStart : UInt16
  freeEnd : UInt16
  leftSibling : UInt64
  rightSibling : UInt64
  deriving DecidableEq

namespace PageHeader

def new (pageType : PageType) (pageId : UInt64) : PageHeader :=
  ⟨pageType, 0, pageId, 1, 0, 0, 64, 8192, 0, 0⟩

/-- The numbers after type and flags, in the order of the layout. -/
def numbers (h : PageHeader) : List (ℕ × ℕ) :=
  [(8, h.pageId.toNat), (8, h.pageGeneration.toNat), (8, h.pageLsn.toNat), (2, h.itemCount.toNat),
    (2, h.freeStart.toNat), (2, h.freeEnd.toNat), (8, h.leftSibling.toNat),
    (8, h.rightSibling.toNat)]

/-- The header up to the checksum. -/
def head (h : PageHeader) : Bytes :=
  pageMagic ++ (littleEndian 2 pageFormatVersion ++ (h.pageType.toByte :: h.flags ::
    (pack h.numbers ++ List.replicate 6 0)))

lemma length_head (h : PageHeader) : h.head.length = 60 := by
  simp [head, pageMagic, length_pack, numbers]

/-- The checksum is taken with its own field zeroed. -/
def checksum (h : PageHeader) (payload : Bytes) : UInt32 := crc32c (h.head ++ ([0, 0, 0, 0] ++ payload))

/-- The bytes of a page under a header. -/
def under (h : PageHeader) (payload : Bytes) : Bytes :=
  h.head ++ (littleEndian 4 (h.checksum payload).toNat ++ payload)

lemma length_under (h : PageHeader) (page : PageBytes) :
    (h.under (page.val.drop pageHeaderLen)).length = pageSize := by
  rw [under, List.length_append, List.length_append, length_head, length_littleEndian,
    List.length_drop, page.2]
  rfl

def write (h : PageHeader) (page : PageBytes) : PageBytes :=
  ⟨h.under (page.val.drop pageHeaderLen), h.length_under page⟩

/-- The records lie between header and end of the page. -/
def Bounded (h : PageHeader) : Prop :=
  ¬ (h.freeStart.toNat < pageHeaderLen ∨ pageSize < h.freeEnd.toNat ∨ h.freeEnd < h.freeStart)

instance (h : PageHeader) : Decidable h.Bounded := by
  unfold Bounded
  infer_instance

/-- The fields of a header of known type. -/
def fields (bytes : Bytes) (pageType : PageType) : PageHeader :=
  ⟨pageType, bytes.getD 7 0, .ofNat (numberAt bytes 8 8), .ofNat (numberAt bytes 16 8),
    .ofNat (numberAt bytes 24 8), .ofNat (numberAt bytes 32 2), .ofNat (numberAt bytes 34 2),
    .ofNat (numberAt bytes 36 2), .ofNat (numberAt bytes 38 8), .ofNat (numberAt bytes 46 8)⟩

def read (page : PageBytes) (expectedId : UInt64) : CoreResult PageHeader :=
  let bytes := page.val
  if slice bytes 0 4 ≠ pageMagic then
    .error (corrupt ("page " ++ toString expectedId ++ ": bad magic"))
  else if numberAt bytes 4 2 ≠ pageFormatVersion then
    .error (.new .unsupportedFormat ("page format " ++ toString (numberAt bytes 4 2)))
  else if (crc32c (bytes.take 60 ++ ([0, 0, 0, 0] ++ bytes.drop pageHeaderLen))).toNat ≠
      numberAt bytes 60 4 then
    .error (.new .checksumMismatch ("page " ++ toString expectedId ++ ": checksum mismatch"))
  else
    match PageType.fromByte (bytes.getD 6 0) with
    | .error err => .error err
    | .ok pageType =>
      if (fields bytes pageType).pageId ≠ expectedId then
        .error (corrupt ("page id mismatch: expected " ++ toString expectedId ++ ", found " ++
          toString (fields bytes pageType).pageId))
      else if (fields bytes pageType).Bounded then .ok (fields bytes pageType)
      else .error (corrupt ("page " ++ toString expectedId ++ ": invalid free bounds"))

section Layout
variable (h : PageHeader) (page : PageBytes)

lemma drop_write : (h.write page).val.drop pageHeaderLen = page.val.drop pageHeaderLen := by
  change (h.under _).drop 64 = _
  rw [under, ← List.append_assoc]
  exact List.drop_left' (by rw [List.length_append, length_head, length_littleEndian])

lemma take_write : (h.write page).val.take 60 = h.head := by
  change (h.under _).take 60 = _
  rw [under, List.take_append_of_le_length h.length_head.ge, List.take_of_length_le h.length_head.le]

lemma checksum_write : numberAt (h.write page).val 60 4 =
    (h.checksum (page.val.drop pageHeaderLen)).toNat :=
  numberAt_littleEndian h.length_head (UInt32.toNat_lt _) _

lemma write_eq : (h.write page).val = (pageMagic ++ (littleEndian 2 pageFormatVersion ++
    [h.pageType.toByte, h.flags])) ++ (pack h.numbers ++ (List.replicate 6 0 ++
      (littleEndian 4 (h.checksum (page.val.drop pageHeaderLen)).toNat ++
        page.val.drop pageHeaderLen))) := by
  simp only [write, under, head, List.append_assoc, List.cons_append, List.nil_append]

/-- The k-th number of the header. -/
lemma numberAt_write (k : ℕ) {n x o : ℕ}
    (hnumbers : h.numbers = h.numbers.take k ++ (n, x) :: h.numbers.drop (k + 1)) (hx : x < 256 ^ n)
    (ho : 8 + ((h.numbers.take k).map Prod.fst).sum = o) : numberAt (h.write page).val o n = x := by
  rw [write_eq, hnumbers]
  exact numberAt_pack _ _ hx ho

lemma word_write (k : ℕ) (x : UInt64) {o : ℕ}
    (hnumbers : h.numbers = h.numbers.take k ++ (8, x.toNat) :: h.numbers.drop (k + 1))
    (ho : 8 + ((h.numbers.take k).map Prod.fst).sum = o) :
    UInt64.ofNat (numberAt (h.write page).val o 8) = x := by
  have hx : x.toNat < 256 ^ 8 := x.toNat_lt
  rw [h.numberAt_write page k hnumbers hx ho, UInt64.ofNat_toNat]

lemma short_write (k : ℕ) (x : UInt16) {o : ℕ}
    (hnumbers : h.numbers = h.numbers.take k ++ (2, x.toNat) :: h.numbers.drop (k + 1))
    (ho : 8 + ((h.numbers.take k).map Prod.fst).sum = o) :
    UInt16.ofNat (numberAt (h.write page).val o 2) = x := by
  have hx : x.toNat < 256 ^ 2 := x.toNat_lt
  rw [h.numberAt_write page k hnumbers hx ho, UInt16.ofNat_toNat]

/-- A header is read back from the page it was written to. -/
theorem read_write (hb : h.Bounded) : read (h.write page) h.pageId = .ok h := by
  have hmagic : slice (h.write page).val 0 4 = pageMagic := by
    rw [write_eq, List.append_assoc]
    exact slice_middle (a := []) (b := pageMagic) rfl rfl _
  have hversion : numberAt (h.write page).val 4 2 = pageFormatVersion := by
    rw [write_eq, List.append_assoc, List.append_assoc]
    exact numberAt_littleEndian rfl (by decide) _
  have hcrc : (crc32c ((h.write page).val.take 60 ++ ([0, 0, 0, 0] ++
      (h.write page).val.drop pageHeaderLen))).toNat = numberAt (h.write page).val 60 4 := by
    rw [checksum_write, take_write, drop_write, checksum]
  have htype : (h.write page).val.getD 6 0 = h.pageType.toByte := rfl
  have hfields : fields (h.write page).val h.pageType = h := by
    have hid := h.word_write page 0 h.pageId (o := 8) rfl rfl
    have hgeneration := h.word_write page 1 h.pageGeneration (o := 16) rfl rfl
    have hlsn := h.word_write page 2 h.pageLsn (o := 24) rfl rfl
    have hcount := h.short_write page 3 h.itemCount (o := 32) rfl rfl
    have hstart := h.short_write page 4 h.freeStart (o := 34) rfl rfl
    have hend := h.short_write page 5 h.freeEnd (o := 36) rfl rfl
    have hleft := h.word_write page 6 h.leftSibling (o := 38) rfl rfl
    have hright := h.word_write page 7 h.rightSibling (o := 46) rfl rfl
    rw [fields, hid, hgeneration, hlsn, hcount, hstart, hend, hleft, hright]
    rfl
  simp only [read]
  rw [if_neg (not_not.mpr hmagic), if_neg (not_not.mpr hversion), if_neg (not_not.mpr hcrc), htype,
    PageType.fromByte_toByte]
  simp only [hfields]
  rw [if_neg (not_not.mpr rfl), if_pos hb]

end Layout

lemma of_read_eq_ok {page : PageBytes} {id : UInt64} {h : PageHeader} (hread : read page id = .ok h) :
    h.pageId = id ∧ h.Bounded ∧ PageType.fromByte (page.val.getD 6 0) = .ok h.pageType ∧
      h = fields page.val h.pageType := by
  simp only [read] at hread
  split_ifs at hread
  cases htype : PageType.fromByte (page.val.getD 6 0) with
  | error err =>
    rw [htype] at hread
    cases hread
  | ok pageType =>
    simp only [htype] at hread
    split_ifs at hread with hid hb
    obtain rfl := Except.ok.inj hread
    exact ⟨not_not.mp hid, hb, rfl, rfl⟩

end PageHeader

end CarolinaDB.Storage
