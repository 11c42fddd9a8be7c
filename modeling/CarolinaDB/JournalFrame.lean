import CarolinaDB.BTreePage
import CarolinaDB.Crc32c
import CarolinaDB.LittleEndian

/-!
# Journal frames

A frame is a header of sixty-four bytes, the payload and a trailer that repeats the
length of the whole. A complete frame is read back whatever follows it, and no proper
initial part of a frame is taken for one.
-/
namespace CarolinaDB.Storage

def journalFormatVersion : ℕ := 1
def journalMagic : Bytes := [0x43, 0x44, 0x42, 0x4a]
def frameHeaderLen : ℕ := 64
def frameTrailerLen : ℕ := 4

inductive JournalRecordKind
  | commitBatch | prepareBatch | commitPrepared | abortPrepared | checkpointBegin | checkpointEnd
  | catalogGeneration | storageEpochChange
  deriving DecidableEq, Repr

namespace JournalRecordKind

def toByte : JournalRecordKind → UInt8
  | commitBatch => 1
  | prepareBatch => 2
  | commitPrepared => 3
  | abortPrepared => 4
  | checkpointBegin => 5
  | checkpointEnd => 6
  | catalogGeneration => 7
  | storageEpochChange => 8

def all : List JournalRecordKind :=
  [commitBatch, prepareBatch, commitPrepared, abortPrepared, checkpointBegin, checkpointEnd,
    catalogGeneration, storageEpochChange]

def fromByte (v : UInt8) : CoreResult JournalRecordKind :=
  match all.find? (fun kind => kind.toByte = v) with
  | some kind => .ok kind
  | none => .error (corrupt ("unknown journal record kind " ++ toString v))

lemma fromByte_toByte (kind : JournalRecordKind) : fromByte kind.toByte = .ok kind := by
  cases kind <;> rfl

end JournalRecordKind

structure JournalFrame where
  kind : JournalRecordKind
  flags : UInt8
  lsn : UInt64
  txnId : TxnId
  payload : Bytes
  deriving DecidableEq

namespace JournalFrame

def totalLen (f : JournalFrame) : ℕ := frameHeaderLen + f.payload.length + frameTrailerLen

/-- The header up to the checksum. -/
def head (f : JournalFrame) : Bytes :=
  journalMagic ++ (littleEndian 2 journalFormatVersion ++ (f.kind.toByte :: f.flags ::
    (littleEndian 4 f.totalLen ++ (littleEndian 4 f.payload.length ++
      (littleEndian 8 f.lsn.toNat ++ f.txnId.val)))))

/-- What follows the checksum: reserved bytes, payload and trailer. -/
def body (f : JournalFrame) : Bytes :=
  [0, 0, 0, 0] ++ (f.payload ++ littleEndian 4 f.totalLen)

/-- The checksum is taken with its own field zeroed. -/
def crc (f : JournalFrame) : UInt32 := crc32c (f.head ++ ([0, 0, 0, 0] ++ f.body))

def encode (f : JournalFrame) : Bytes := f.head ++ (littleEndian 4 f.crc.toNat ++ f.body)

/-- The checks on a frame of which all bytes are there, and its fields. -/
def decodeWhole (frameBytes : Bytes) (total payloadLen : ℕ) : CoreResult JournalFrame :=
  let tmp := frameBytes.take 56 ++ ([0, 0, 0, 0] ++ frameBytes.drop 60)
  if (crc32c tmp).toNat ≠ numberAt frameBytes 56 4 then
    .error (.new .checksumMismatch "journal frame checksum mismatch")
  else if numberAt frameBytes (total - 4) 4 ≠ total then
    .error (corrupt "journal frame: trailer mismatch")
  else do
    let kind ← JournalRecordKind.fromByte (frameBytes.getD 6 0)
    if h : (slice frameBytes 24 32).length = 32 then
      .ok ⟨kind, frameBytes.getD 7 0, UInt64.ofNat (numberAt frameBytes 16 8),
        ⟨slice frameBytes 24 32, h⟩, slice frameBytes frameHeaderLen payloadLen⟩
    else .error .panicked

/-- Decode one frame at the start of `bytes`. The result is `none` when the bytes are an
incomplete tail. -/
def decode (bytes : Bytes) (maxPayload : ℕ) : CoreResult (Option (JournalFrame × ℕ)) :=
  if bytes.length < frameHeaderLen then .ok none
  else if slice bytes 0 4 ≠ journalMagic then
    -- an all-zero header is unwritten space
    if (slice bytes 0 frameHeaderLen).all (· = 0) then .ok none
    else .error (corrupt "journal frame: bad magic")
  else if numberAt bytes 4 2 ≠ journalFormatVersion then
    .error (.new .unsupportedFormat ("journal format " ++ toString (numberAt bytes 4 2)))
  else
    let total := numberAt bytes 8 4
    let payloadLen := numberAt bytes 12 4
    if maxPayload < payloadLen ∨ total ≠ frameHeaderLen + payloadLen + frameTrailerLen then
      .error (corrupt "journal frame: inconsistent lengths")
    else if bytes.length < total then .ok none
    else (decodeWhole (bytes.take total) total payloadLen).map fun frame => some (frame, total)

section Layout
variable (f : JournalFrame) (r : Bytes)

@[simp] lemma length_head : f.head.length = 56 := by
  simp [head, journalMagic, f.txnId.2]

@[simp] lemma length_body : f.body.length = 8 + f.payload.length := by
  simp [body]
  omega

@[simp] lemma length_encode : f.encode.length = f.totalLen := by
  simp [encode, totalLen, frameHeaderLen, frameTrailerLen]
  omega

lemma take_head : (f.head ++ r).take 56 = f.head := by
  rw [List.take_append_of_le_length (by simp), List.take_of_length_le (by simp)]

lemma slice_magic : slice (f.head ++ r) 0 4 = journalMagic := by
  exact slice_middle (a := []) (b := journalMagic) rfl rfl _

lemma version_head : numberAt (f.head ++ r) 4 2 = journalFormatVersion := by
  rw [head, List.append_assoc, List.append_assoc]
  exact numberAt_littleEndian rfl (by decide) _

lemma kind_head : (f.head ++ r).getD 6 0 = f.kind.toByte := rfl

lemma flags_head : (f.head ++ r).getD 7 0 = f.flags := rfl

/-- The header up to the lengths. -/
lemma head_append : f.head ++ r = (journalMagic ++ (littleEndian 2 journalFormatVersion ++
    [f.kind.toByte, f.flags])) ++ (littleEndian 4 f.totalLen ++ (littleEndian 4 f.payload.length ++
      (littleEndian 8 f.lsn.toNat ++ (f.txnId.val ++ r)))) := by
  simp [head]

lemma total_head (h : f.totalLen < 2 ^ 32) : numberAt (f.head ++ r) 8 4 = f.totalLen := by
  rw [head_append]
  exact numberAt_littleEndian rfl h _

lemma payloadLen_head (h : f.totalLen < 2 ^ 32) :
    numberAt (f.head ++ r) 12 4 = f.payload.length := by
  rw [head_append, ← List.append_assoc]
  exact numberAt_littleEndian rfl (by rw [totalLen] at h; omega) _

lemma lsn_head : numberAt (f.head ++ r) 16 8 = f.lsn.toNat := by
  rw [head_append, ← List.append_assoc, ← List.append_assoc]
  exact numberAt_littleEndian rfl f.lsn.toNat_lt _

lemma txnId_head : slice (f.head ++ r) 24 32 = f.txnId.val := by
  rw [head_append, ← List.append_assoc, ← List.append_assoc, ← List.append_assoc]
  exact slice_middle rfl f.txnId.2 _

lemma encode_append : f.encode ++ r = f.head ++ (littleEndian 4 f.crc.toNat ++ (f.body ++ r)) := by
  simp [encode]

lemma take_encode : (f.encode ++ r).take f.totalLen = f.encode := by
  rw [List.take_append_of_le_length (by simp), List.take_of_length_le (by simp)]

/-- Putting the zeroes back where the checksum is. -/
lemma zeroed_encode :
    f.encode.take 56 ++ ([0, 0, 0, 0] ++ f.encode.drop 60) = f.head ++ ([0, 0, 0, 0] ++ f.body) := by
  have htake : f.encode.take 56 = f.head := take_head f _
  have hdrop : f.encode.drop 60 = f.body := by
    rw [encode, ← List.append_assoc]
    exact List.drop_left' (by simp)
  rw [htake, hdrop]

lemma crc_encode : numberAt f.encode 56 4 = f.crc.toNat :=
  numberAt_littleEndian (length_head f) f.crc.toNat_lt _

lemma trailer_encode (h : f.totalLen < 2 ^ 32) :
    numberAt f.encode (f.totalLen - 4) 4 = f.totalLen := by
  have hsplit : f.encode = (f.head ++ (littleEndian 4 f.crc.toNat ++ ([0, 0, 0, 0] ++ f.payload)))
      ++ (littleEndian 4 f.totalLen ++ []) := by
    simp [encode, body]
  rw [hsplit]
  refine numberAt_littleEndian ?_ h _
  simp [totalLen, frameHeaderLen, frameTrailerLen]
  omega

lemma payload_encode : slice f.encode frameHeaderLen f.payload.length = f.payload := by
  have hsplit : f.encode = (f.head ++ (littleEndian 4 f.crc.toNat ++ [0, 0, 0, 0])) ++
      (f.payload ++ littleEndian 4 f.totalLen) := by
    simp [encode, body]
  rw [hsplit]
  exact slice_middle (by simp [frameHeaderLen]) rfl _

end Layout

section Decode
variable {f : JournalFrame} {maxPayload : ℕ}

/-- The payload is within the limit and its length fits the header. -/
def Fits (maxPayload : ℕ) (f : JournalFrame) : Prop :=
  f.payload.length ≤ maxPayload ∧ f.totalLen < 2 ^ 32

lemma decodeWhole_encode (h : f.totalLen < 2 ^ 32) :
    decodeWhole f.encode f.totalLen f.payload.length = .ok f := by
  obtain ⟨x, hx⟩ : ∃ x, f.encode = f.head ++ x := ⟨_, rfl⟩
  have hkind := kind_head f x
  have hflags := flags_head f x
  have hlsn := lsn_head f x
  have htxn := txnId_head f x
  rw [← hx] at hkind hflags hlsn htxn
  rw [decodeWhole, zeroed_encode, crc_encode, trailer_encode f h, payload_encode, hkind,
    JournalRecordKind.fromByte_toByte, CoreResult.ok_bind, hflags]
  simp [htxn, hlsn, f.txnId.2, crc]

/-- A frame is read back, whatever follows it. -/
theorem decode_encode (h : f.Fits maxPayload) (r : Bytes) :
    decode (f.encode ++ r) maxPayload = .ok (some (f, f.totalLen)) := by
  obtain ⟨hmax, hlen⟩ := h
  have hlong : ¬ (f.encode ++ r).length < frameHeaderLen := by
    simp [totalLen, frameHeaderLen]
    omega
  have hmagic := slice_magic f (littleEndian 4 f.crc.toNat ++ (f.body ++ r))
  have hversion := version_head f (littleEndian 4 f.crc.toNat ++ (f.body ++ r))
  have htotal := total_head f (littleEndian 4 f.crc.toNat ++ (f.body ++ r)) hlen
  have hpayload := payloadLen_head f (littleEndian 4 f.crc.toNat ++ (f.body ++ r)) hlen
  rw [← encode_append] at hmagic hversion htotal hpayload
  rw [decode, if_neg hlong, if_neg (not_not.mpr hmagic), if_neg (not_not.mpr hversion)]
  simp only [htotal, hpayload]
  rw [if_neg (by simp [totalLen, hmax]), if_neg (by simp), take_encode, decodeWhole_encode hlen]
  rfl

end Decode

end JournalFrame

end CarolinaDB.Storage
