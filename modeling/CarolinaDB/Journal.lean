import CarolinaDB.JournalFrame

/-!
# The commit journal

Frames are appended to numbered segment files and carry increasing sequence
numbers. Opening scans the segments from the one the manifest names; bytes that do
not form a frame are cut off at the end of the last segment and refused elsewhere.
-/
namespace CarolinaDB

/-- The name of an error code. -/
def ErrorCode.display (code : ErrorCode) : String :=
  (((reprStr code).splitOn ".").getLast?.getD "").capitalize

def CoreError.display (e : CoreError) : String :=
  match e.path with
  | some p => e.code.display ++ ": " ++ e.message ++ " (at " ++ p ++ ")"
  | none => e.code.display ++ ": " ++ e.message

namespace Storage

def maxJournalPayload : ℕ := 32 * 1024 * 1024

structure Segment where
  number : ℕ
  bytes : Bytes
  deriving DecidableEq

/-- The segment files of a journal, by increasing number. -/
structure Directory where
  segments : List Segment
  sorted : segments.Pairwise fun s t => s.number < t.number

namespace Directory

@[ext] lemma ext {d d' : Directory} (h : d.segments = d'.segments) : d = d' := by
  cases d
  cases d'
  simpa using h

def empty : Directory := ⟨[], List.Pairwise.nil⟩

def last (d : Directory) : Option ℕ := d.segments.getLast?.map Segment.number

def bytesOf (d : Directory) (n : ℕ) : Bytes :=
  ((d.segments.find? fun s => s.number = n).map Segment.bytes).getD []

/-- Change the contents of a file. -/
def update (d : Directory) (n : ℕ) (g : Bytes → Bytes) : Directory where
  segments := d.segments.map fun s => if s.number = n then ⟨n, g s.bytes⟩ else s
  sorted := by
    refine List.pairwise_map.mpr (d.sorted.imp fun {s t} h => ?_)
    have hnum (s : Segment) :
        (if s.number = n then (⟨n, g s.bytes⟩ : Segment) else s).number = s.number := by
      split_ifs with hs
      · exact hs.symm
      · rfl
    rwa [hnum, hnum]

def keep (d : Directory) (p : Segment → Bool) : Directory where
  segments := d.segments.filter p
  sorted := d.sorted.filter p

/-- A file among the others, at its place. -/
def insertSegment (s : Segment) : List Segment → List Segment
  | [] => [s]
  | t :: ts =>
    if s.number < t.number then s :: t :: ts
    else if t.number < s.number then t :: insertSegment s ts
    else t :: ts

lemma mem_insertSegment {s t : Segment} {l : List Segment} (h : t ∈ insertSegment s l) :
    t = s ∨ t ∈ l := by
  induction l with
  | nil => simpa [insertSegment] using h
  | cons u l ih =>
    rw [insertSegment] at h
    split_ifs at h
    · simpa using h
    · rcases List.mem_cons.mp h with rfl | h
      · simp
      · rcases ih h with h | h <;> simp [h]
    · exact Or.inr h

lemma sorted_insertSegment (s : Segment) {l : List Segment}
    (h : l.Pairwise fun s t => s.number < t.number) :
    (insertSegment s l).Pairwise fun s t => s.number < t.number := by
  induction l with
  | nil => simp [insertSegment]
  | cons u l ih =>
    obtain ⟨hu, hl⟩ := List.pairwise_cons.mp h
    rw [insertSegment]
    split_ifs with hlt hgt
    · refine List.pairwise_cons.mpr ⟨fun t ht => ?_, h⟩
      rcases List.mem_cons.mp ht with rfl | ht
      · exact hlt
      · exact hlt.trans (hu t ht)
    · refine List.pairwise_cons.mpr ⟨fun t ht => ?_, ih hl⟩
      rcases mem_insertSegment ht with rfl | ht
      · exact hgt
      · exact hu t ht
    · exact h

/-- Open a file, creating it if there is none. -/
def touch (d : Directory) (n : ℕ) : Directory where
  segments := insertSegment ⟨n, []⟩ d.segments
  sorted := sorted_insertSegment _ d.sorted

end Directory

structure Journal where
  directory : Directory
  segmentBytes : ℕ
  currentSegment : ℕ
  nextLsn : ℕ
  durableLsn : ℕ
  appendedLsn : ℕ

/-- A frame with its physical position. -/
structure ScannedFrame where
  segment : ℕ
  offset : ℕ
  frame : JournalFrame
  deriving DecidableEq

/-- The bytes look like a partially written frame at the end of a file. -/
def isTailFrame (b : Bytes) : Bool :=
  if b.length < frameHeaderLen then true
  else
    let total := numberAt b 8 4
    if total < frameHeaderLen + frameTrailerLen then false
    else if b.length < total then true
    else numberAt b (total - 4) 4 ≠ total || (b.drop total).all (· = 0)

/-- What the scan of a segment finds: its frames, the highest number so far, and where the
file ends. -/
structure Scan where
  frames : List ScannedFrame
  maxLsn : ℕ
  fileEnd : ℕ
  deriving DecidableEq

namespace Journal

/-- Scan the bytes of a segment from an offset. A frame takes several bytes, so their number is
fuel enough. -/
def scanSegment (seg : ℕ) (isLast : Bool) : ℕ → ℕ → ℕ → Bytes → CoreResult Scan
  | 0, off, maxLsn, _ => .ok ⟨[], maxLsn, off⟩
  | fuel+1, off, maxLsn, bytes =>
    if bytes = [] then .ok ⟨[], maxLsn, off⟩
    else
      match JournalFrame.decode bytes maxJournalPayload with
      | .ok (some (frame, n)) =>
        if frame.lsn.toNat ≤ maxLsn ∧ maxLsn ≠ 0 then
          .error (.new .corruption ("non-monotonic LSN " ++ toString frame.lsn ++ " after " ++
            toString maxLsn))
        else
          (scanSegment seg isLast fuel (off + n) frame.lsn.toNat (bytes.drop n)).map fun scan =>
            { scan with frames := ⟨seg, off, frame⟩ :: scan.frames }
      | .ok none =>
        -- legal only as the physical tail of the last segment
        if isLast then .ok ⟨[], maxLsn, off⟩
        else .error (.new .corruption ("incomplete frame in non-final segment " ++ toString seg))
      | .error e =>
        if isLast && isTailFrame bytes then .ok ⟨[], maxLsn, off⟩
        else
          .error (.new .corruption ("journal corruption in segment " ++ toString seg ++
            " at offset " ++ toString off ++ ": " ++ e.display))

/-- Scan the segments in turn. The result holds all frames, the highest number, and the segments
as they are left. -/
def scanSegments (last : Option ℕ) :
    ℕ → List Segment → CoreResult (List ScannedFrame × ℕ × List Segment)
  | maxLsn, [] => .ok ([], maxLsn, [])
  | maxLsn, s :: ss => do
    let scan ← scanSegment s.number (last = some s.number) (s.bytes.length + 1) 0 maxLsn s.bytes
    let (frames, maxLsn, rest) ← scanSegments last scan.maxLsn ss
    .ok (scan.frames ++ frames, maxLsn, ⟨s.number, s.bytes.take scan.fileEnd⟩ :: rest)

end Journal

/-- Open or create the journal, scanning from `start`. -/
def Journal.open (dir : Directory) (start segmentBytes : ℕ) :
    CoreResult (Journal × List ScannedFrame) := do
  let (frames, maxLsn, kept) ←
    Journal.scanSegments dir.last 0 (dir.segments.filter fun s => start ≤ s.number)
  let left : Directory := kept.foldl (fun d s => d.update s.number fun _ => s.bytes) dir
  let currentSegment := max (dir.last.getD 1) (max start 1)
  .ok (⟨left.touch currentSegment, segmentBytes, currentSegment, maxLsn + 1, maxLsn, maxLsn⟩,
    frames)

namespace Journal

/-- Length of the current file. -/
def fileLen (j : Journal) : ℕ := (j.directory.bytesOf j.currentSegment).length

def rollSegment (j : Journal) : Journal :=
  { j with
    currentSegment := j.currentSegment + 1
    directory := j.directory.touch (j.currentSegment + 1) }

/-- A frame at the end of the current file. -/
def writeFrame (j : Journal) (frame : JournalFrame) : Journal :=
  { j with
    directory := j.directory.update j.currentSegment (· ++ frame.encode)
    nextLsn := j.nextLsn + 1
    appendedLsn := j.nextLsn }

/-- Append one frame, not yet durable. Running out of sequence numbers is a panic. -/
def append (j : Journal) (kind : JournalRecordKind) (txnId : TxnId) (payload : Bytes) :
    CoreResult (ℕ × Journal) :=
  if maxJournalPayload < payload.length then
    .error (.new .batchTooLarge "journal payload exceeds limit")
  else if 2 ^ 64 ≤ j.nextLsn + 1 then .error .panicked
  else
    let j := if j.segmentBytes ≤ j.fileLen then j.rollSegment else j
    .ok (j.nextLsn, j.writeFrame ⟨kind, 0, UInt64.ofNat j.nextLsn, txnId, payload⟩)

/-- Cross the durable barrier for everything appended so far. -/
def sync (j : Journal) : Journal := { j with durableLsn := j.appendedLsn }

/-- The number of the first frame of every segment, if it has one. -/
def segmentFloors (j : Journal) : List (ℕ × Option ℕ) :=
  j.directory.segments.map fun s =>
    (s.number, match JournalFrame.decode s.bytes maxJournalPayload with
      | .ok (some (frame, _)) => some frame.lsn.toNat
      | _ => none)

/-- The last segment, among those before the first one past `fromLsn`, that starts at or before
`fromLsn`. -/
def neededSegment (fromLsn : ℕ) : List (ℕ × Option ℕ) → ℕ → ℕ
  | [], needed => needed
  | (_, none) :: rest, needed => neededSegment fromLsn rest needed
  | (seg, some first) :: rest, needed =>
    if first ≤ fromLsn then neededSegment fromLsn rest (max needed seg) else needed

/-- The earliest segment that must survive for a scan from there to see `fromLsn` and everything
after it. -/
def firstNeededSegment (j : Journal) (fromLsn : ℕ) : ℕ :=
  min (neededSegment fromLsn j.segmentFloors 1) j.currentSegment

/-- Delete the segments below `keepFrom`, except the current one. -/
def reclaimSegmentsBelow (j : Journal) (keepFrom : ℕ) : Journal :=
  { j with directory := j.directory.keep fun s => keepFrom ≤ s.number ∨ s.number = j.currentSegment }

end Journal

end Storage

end CarolinaDB
