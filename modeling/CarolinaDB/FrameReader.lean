import CarolinaDB.Frame
import CarolinaDB.Incremental

/-!
# The reader of a connection's frames

Bytes arrive in pieces of any size. The reader checks a header as soon as it is there, before the
payload has arrived, and counts the frames of its direction from zero. Once it has refused a frame
it accepts nothing more.
-/
namespace CarolinaDB

def headerLen : ℕ := 32

def MessageKind.fromU16 (v : ℕ) : CoreResult MessageKind :=
  match v with
  | 1 => .ok .hello
  | 2 => .ok .helloAck
  | 3 => .ok .invoke
  | 4 => .ok .reply
  | 5 => .ok .resolveRequest
  | 6 => .ok .resolveReply
  | 7 => .ok .read
  | 8 => .ok .readReply
  | 9 => .ok .protocolRecord
  | 10 => .ok .snapshotManifest
  | 11 => .ok .snapshotChunk
  | 12 => .ok .consensus
  | 13 => .ok .admin
  | 14 => .ok .adminReply
  | v => .error (.new .protocolError ("unknown message kind " ++ toString v))

/-- Negotiation frames use stream zero and come before all others. -/
def MessageKind.isNegotiation : MessageKind → Bool
  | hello | helloAck => true
  | _ => false

/-- A number as the source's `#x` shows it. -/
def hexText (n : ℕ) : String := "0x" ++ String.ofList (Nat.toDigits 16 n)

/-- Read a header. The payload it announces is no longer than `maxPayload`. -/
def FrameHeader.decode (bytes : Bytes) (maxPayload : ℕ) : CoreResult FrameHeader := do
  if bytes.length < headerLen then .error (.new .protocolError "truncated frame header")
  if slice bytes 0 4 ≠ [0x41, 0x53, 0x54, 0x52] then .error (.new .protocolError "bad magic")
  let major := numberAt bytes 4 2
  let minor := numberAt bytes 6 2
  if major ≠ 1 ∨ minor ≠ 0 then
    .error (.new .incompatiblePeer
      ("unsupported wire version " ++ toString major ++ "." ++ toString minor))
  let kind ← MessageKind.fromU16 (numberAt bytes 8 2)
  let flags := numberAt bytes 10 2
  if flags ≠ 0 then .error (.new .protocolError ("unsupported flags " ++ hexText flags))
  let payloadLength := numberAt bytes 12 4
  if maxPayload < payloadLength then
    .error (.new .resourceLimit ("payload length " ++ toString payloadLength ++ " exceeds limit"))
  let streamId := numberAt bytes 16 8
  let sequence := numberAt bytes 24 8
  .ok { kind, payloadLength, streamId, sequence }

/-- A whole frame, for any limit of the payload. The length is cast to 32 bits. -/
def encodeFrameWithin (maxPayload : ℕ) (kind : MessageKind) (streamId sequence : ℕ)
    (payload : Bytes) : CoreResult Bytes :=
  if maxPayload < payload.length then
    .error (.new .resourceLimit "payload exceeds max_frame_payload")
  else if kind = .hello ∨ kind = .helloAck then
    if streamId ≠ 0 then .error (.new .protocolError "negotiation frames use stream 0")
    else .ok ((FrameHeader.mk kind (payload.length % 2 ^ 32) streamId sequence).encode ++ payload)
  else if streamId = 0 then
    .error (.new .protocolError "non-negotiation frames need a nonzero stream id")
  else .ok ((FrameHeader.mk kind (payload.length % 2 ^ 32) streamId sequence).encode ++ payload)

structure Frame where
  header : FrameHeader
  payload : Bytes
  deriving DecidableEq, Repr

structure FrameReader where
  buf : Bytes
  nextSequence : ℕ
  negotiated : Bool
  failed : Bool
  deriving DecidableEq, Repr

namespace FrameReader
open Incremental

def new : FrameReader := ⟨[], 0, false, false⟩

/-- The checks of a header that has arrived. -/
def checkHeader (r : FrameReader) (maxPayload : ℕ) : CoreResult FrameHeader := do
  let header ← FrameHeader.decode (r.buf.take headerLen) maxPayload
  if header.sequence ≠ r.nextSequence then
    .error (.new .protocolError ("frame sequence gap or reuse: expected " ++
      toString r.nextSequence ++ ", got " ++ toString header.sequence))
  if ¬ r.negotiated ∧ ¬ header.kind.isNegotiation then
    .error (.new .protocolError "frame before negotiation")
  if header.kind.isNegotiation ∧ header.streamId ≠ 0 ∨
      ¬ header.kind.isNegotiation ∧ header.streamId = 0 then
    .error (.new .protocolError "stream id inconsistent with message kind")
  .ok header

/-- One pass of the loop of `feed`. A refused header marks the reader as failed; a counter that
cannot go further does not. -/
def pass (maxPayload : ℕ) (r : FrameReader) : Front FrameReader Frame CoreError :=
  if r.buf.length < headerLen then .wait
  else match r.checkHeader maxPayload with
    | .error e => .refuse e { r with failed := true }
    | .ok header =>
      if r.buf.length < headerLen + header.payloadLength then .wait
      else
        let payload := slice r.buf headerLen header.payloadLength
        let rest := r.buf.drop (headerLen + header.payloadLength)
        if r.nextSequence + 1 = 2 ^ 64 then
          .refuse (.new .protocolError "sequence exhausted") { r with buf := rest }
        else .item ⟨header, payload⟩
          { r with
            buf := rest
            nextSequence := r.nextSequence + 1
            negotiated := r.negotiated || header.kind.isNegotiation }

/-- The loop of `feed`: every pass but the last uses up a header at least. -/
def feedLoop (maxPayload : ℕ) : ℕ → FrameReader → List Frame → CoreResult (List Frame) × FrameReader
  | 0, r, _ => (.error .panicked, r)
  | n + 1, r, out =>
    match r.pass maxPayload with
    | .wait => (.ok out, r)
    | .refuse e r' => (.error e, r')
    | .item f r' => feedLoop maxPayload n r' (out ++ [f])

/-- Feed bytes; returns complete frames in order. A protocol failure poisons the reader. -/
def feed (r : FrameReader) (bytes : Bytes) (maxPayload : ℕ) :
    CoreResult (List Frame) × FrameReader :=
  if r.failed then
    (.error (.new .protocolError "connection failed; no further frames are dispatched"), r)
  else
    let r := { r with buf := r.buf ++ bytes }
    feedLoop maxPayload (r.buf.length + 1) r []

/-- The frames that calls of `feed` hand over before the first failure, and that failure with the
number of the frame it is about. -/
def feedAll (maxPayload : ℕ) : FrameReader → List Bytes → List Frame × Option (CoreError × ℕ)
  | _, [] => ([], none)
  | r, c :: cs =>
    match r.feed c maxPayload with
    | (.ok fs, r') => (fs ++ (feedAll maxPayload r' cs).1, (feedAll maxPayload r' cs).2)
    | (.error e, r') => ([], some (e, r'.nextSequence))

section stability
variable {maxPayload : ℕ} {r r' : FrameReader} {f : Frame} {e : CoreError}

/-- More bytes behind those a reader has. -/
def push (r : FrameReader) (bytes : Bytes) : FrameReader := { r with buf := r.buf ++ bytes }

lemma checkHeader_push (h : headerLen ≤ r.buf.length) (b : Bytes) :
    (r.push b).checkHeader maxPayload = r.checkHeader maxPayload := by
  rw [checkHeader, checkHeader, push, List.take_append_of_le_length h]

/-- What a pass that takes a frame has checked and does. -/
lemma pass_eq_item (h : r.pass maxPayload = .item f r') :
    headerLen + f.header.payloadLength ≤ r.buf.length ∧
      r.checkHeader maxPayload = .ok f.header ∧ r.nextSequence + 1 ≠ 2 ^ 64 ∧
      f.payload = slice r.buf headerLen f.header.payloadLength ∧
      r' = { r with
        buf := r.buf.drop (headerLen + f.header.payloadLength)
        nextSequence := r.nextSequence + 1
        negotiated := r.negotiated || f.header.kind.isNegotiation } := by
  by_cases hshort : r.buf.length < headerLen
  · rw [pass, if_pos hshort] at h
    cases h
  rw [pass, if_neg hshort] at h
  cases hcheck : r.checkHeader maxPayload with
  | error e => simp [hcheck] at h
  | ok header =>
    simp only [hcheck] at h
    split_ifs at h with hlen hseq
    obtain ⟨rfl, rfl⟩ := Front.item.inj h
    exact ⟨not_lt.mp hlen, rfl, hseq, rfl, rfl⟩

lemma pass_of_item (hlen : headerLen + f.header.payloadLength ≤ r.buf.length)
    (hcheck : r.checkHeader maxPayload = .ok f.header) (hseq : r.nextSequence + 1 ≠ 2 ^ 64)
    (hpayload : f.payload = slice r.buf headerLen f.header.payloadLength) :
    r.pass maxPayload = .item f { r with
        buf := r.buf.drop (headerLen + f.header.payloadLength)
        nextSequence := r.nextSequence + 1
        negotiated := r.negotiated || f.header.kind.isNegotiation } := by
  rw [pass, if_neg (by omega)]
  simp only [hcheck]
  rw [if_neg (by omega), if_neg hseq, ← hpayload]

lemma pass_push_item (b : Bytes) (h : r.pass maxPayload = .item f r') :
    (r.push b).pass maxPayload = .item f (r'.push b) := by
  obtain ⟨hlen, hcheck, hseq, hpayload, rfl⟩ := pass_eq_item h
  have hheader : headerLen ≤ r.buf.length := by omega
  rw [pass_of_item (f := f) (r := r.push b)]
  · simp only [push, List.drop_append_of_le_length hlen]
  · simp only [push, List.length_append]
    omega
  · rw [checkHeader_push hheader, hcheck]
  · exact hseq
  · rw [hpayload, push, slice_append_of_le hlen]

lemma pass_push_refuse (b : Bytes) (h : r.pass maxPayload = .refuse e r') :
    (r.push b).pass maxPayload = .refuse e (r'.push b) ∧ r'.nextSequence = r.nextSequence := by
  by_cases hshort : r.buf.length < headerLen
  · rw [pass, if_pos hshort] at h
    cases h
  rw [pass, if_neg hshort] at h
  have hheader : headerLen ≤ r.buf.length := not_lt.mp hshort
  have hlong : ¬ (r.push b).buf.length < headerLen := by
    simp only [push, List.length_append]
    omega
  rw [pass, if_neg hlong, checkHeader_push hheader]
  cases hcheck : r.checkHeader maxPayload with
  | error e' =>
    rw [hcheck] at h
    obtain ⟨rfl, rfl⟩ := Front.refuse.inj h
    exact ⟨rfl, rfl⟩
  | ok header =>
    simp only [hcheck] at h ⊢
    split_ifs at h with hlen hseq
    obtain ⟨rfl, rfl⟩ := Front.refuse.inj h
    have hfull : ¬ (r.push b).buf.length < headerLen + header.payloadLength := by
      simp only [push, List.length_append]
      omega
    have hseq' : (r.push b).nextSequence + 1 = 2 ^ 64 := hseq
    rw [if_neg hfull, if_pos hseq']
    simp only [push, List.drop_append_of_le_length (not_lt.mp hlen), and_self]

/-- The reader of frames as a reader of a stream. A refusal carries the number of the frame. -/
def reader (maxPayload : ℕ) : Reader FrameReader UInt8 Frame (CoreError × ℕ) where
  push := push
  pass r := match r.pass maxPayload with
    | .wait => .wait
    | .refuse e r' => .refuse (e, r'.nextSequence) r'
    | .item f r' => .item f r'
  size r := r.buf.length
  push_nil r := by simp [push]
  push_append r a b := by simp [push]
  pass_item {r f r'} b h := by
    cases hp : r.pass maxPayload <;> rw [hp] at h <;> cases h
    rw [pass_push_item b hp]
  pass_refuse {r e r'} b h := by
    cases hp : r.pass maxPayload <;> rw [hp] at h <;> cases h
    obtain ⟨hpush, hseq⟩ := pass_push_refuse b hp
    rw [hpush]
    rfl
  size_lt {r f r'} h := by
    cases hp : r.pass maxPayload <;> rw [hp] at h <;> cases h
    obtain ⟨hlen, -, -, -, rfl⟩ := pass_eq_item hp
    simp only [List.length_drop, headerLen] at hlen ⊢
    omega

end stability

section chunking
variable {maxPayload : ℕ} {r r' : FrameReader}

/-- A pass that does not refuse leaves the reader usable. -/
lemma failed_of_drains {fs : List Frame} (hf : r.failed = false)
    (h : Drains (reader maxPayload) r fs none r') : r'.failed = false := by
  generalize hnone : (none : Option (CoreError × ℕ)) = o at h
  induction h with
  | wait _ => exact hf
  | refuse _ => cases hnone
  | @item r r₁ s f fs o hp _ ih =>
    refine ih ?_ hnone
    cases hpass : r.pass maxPayload <;> simp only [reader, hpass] at hp <;> cases hp
    obtain ⟨-, -, -, -, rfl⟩ := pass_eq_item hpass
    exact hf

/-- The loop hands over what it read, unless a frame is refused. -/
lemma feedLoop_of_drains {fs out : List Frame} {o : Option (CoreError × ℕ)} {n : ℕ}
    (hn : r.buf.length < n) (h : Drains (reader maxPayload) r fs o r') :
    feedLoop maxPayload n r out = (o.elim (.ok (out ++ fs)) fun e => .error e.1, r') := by
  induction h generalizing n out with
  | @wait r hp =>
    obtain ⟨n, rfl⟩ := Nat.exists_eq_add_of_lt hn
    cases hpass : r.pass maxPayload <;> simp only [reader, hpass] at hp <;> cases hp
    simp [feedLoop, hpass]
  | @refuse r r' e hp =>
    obtain ⟨n, rfl⟩ := Nat.exists_eq_add_of_lt hn
    cases hpass : r.pass maxPayload <;> simp only [reader, hpass] at hp <;> cases hp
    simp [feedLoop, hpass]
  | @item r r₁ s f fs o hp _ ih =>
    have hlt := (reader maxPayload).size_lt hp
    obtain ⟨n, rfl⟩ := Nat.exists_eq_add_of_lt hn
    cases hpass : r.pass maxPayload <;> simp only [reader, hpass] at hp <;> cases hp
    rw [feedLoop, hpass]
    simp only
    rw [ih (by simp only [reader] at hlt; omega)]
    cases o <;> simp

lemma feed_of_drains {fs : List Frame} {o : Option (CoreError × ℕ)} {c : Bytes}
    (hf : r.failed = false) (h : Drains (reader maxPayload) (r.push c) fs o r') :
    r.feed c maxPayload = (o.elim (.ok fs) fun e => .error e.1, r') := by
  rw [feed, if_neg (by simp [hf])]
  exact feedLoop_of_drains (Nat.lt_succ_self _) h

/-- A refusal is about the frame whose turn it is. -/
lemma nextSequence_of_drains {fs : List Frame} {e : CoreError × ℕ}
    (h : Drains (reader maxPayload) r fs (some e) r') : e.2 = r'.nextSequence := by
  generalize hsome : some e = o at h
  induction h with
  | wait _ => cases hsome
  | @refuse r r' e hp =>
    obtain rfl := Option.some.inj hsome
    cases hpass : r.pass maxPayload <;> simp only [reader, hpass] at hp <;> cases hp
    rfl
  | item _ _ ih => exact ih hsome

/-- Calls of `feed` are those of a reader that loses what a failing call had read. -/
lemma feedAll_eq_feeds (hf : r.failed = false) (cs : List Bytes) :
    r.feedAll maxPayload cs = (reader maxPayload).feeds r cs := by
  induction cs generalizing r with
  | nil => rfl
  | cons c cs ih =>
    have hd := drains_drain (reader maxPayload) (r.push c)
    have hpush : (reader maxPayload).push r c = r.push c := rfl
    rw [feedAll, Reader.feeds, feed_of_drains hf hd, hpush]
    generalize (reader maxPayload).drain (r.push c) = d at hd
    obtain ⟨fs, o, r'⟩ := d
    cases o with
    | none =>
      simp only [Option.elim]
      rw [ih (failed_of_drains (r := r.push c) hf hd)]
    | some e =>
      simp only [Option.elim]
      rw [← nextSequence_of_drains hd]

/-- What a stream of bytes comes to: its frames, and the failure with the number of the frame that
is refused. -/
def decodeStream (maxPayload : ℕ) (stream : Bytes) : List Frame × Option (CoreError × ℕ) :=
  let d := (reader maxPayload).drain (new.push stream)
  (d.1, d.2.1)

/-- Some call completes frames and brings a frame that is refused after them. -/
def DropsFrames (maxPayload : ℕ) (chunks : List Bytes) : Prop :=
  ∃ before c after, chunks = before ++ c :: after ∧
    (decodeStream maxPayload before.flatten).2 = none ∧
    (decodeStream maxPayload (before.flatten ++ c)).2 ≠ none ∧
    (decodeStream maxPayload (before.flatten ++ c)).1 ≠ (decodeStream maxPayload before.flatten).1

lemma feedAll_eq_iff (maxPayload : ℕ) (chunks : List Bytes) :
    new.feedAll maxPayload chunks = decodeStream maxPayload chunks.flatten ↔
      ¬ DropsFrames maxPayload chunks := by
  obtain ⟨herr, hitems⟩ := Reader.feeds_eq_drain_iff
    (show (reader maxPayload).pass new = .wait from rfl) chunks
  rw [feedAll_eq_feeds rfl, Prod.ext_iff]
  exact ⟨fun h => hitems.mp h.1, fun h => ⟨hitems.mpr h, herr⟩⟩

end chunking

end FrameReader

section encoding

lemma MessageKind.fromU16_code (kind : MessageKind) : MessageKind.fromU16 kind.code = .ok kind := by
  cases kind <;> rfl

lemma MessageKind.isNegotiation_iff {kind : MessageKind} :
    kind.isNegotiation ↔ kind = .hello ∨ kind = .helloAck := by
  cases kind <;> simp [MessageKind.isNegotiation]

/-- A header whose fields fit their widths. -/
structure FrameHeader.Fits (h : FrameHeader) (maxPayload : ℕ) : Prop where
  payload : h.payloadLength < 2 ^ 32
  within : h.payloadLength ≤ maxPayload
  stream : h.streamId < 2 ^ 64
  sequence : h.sequence < 2 ^ 64

lemma FrameHeader.encode_eq (h : FrameHeader) : h.encode = [0x41, 0x53, 0x54, 0x52] ++
    (pack [(2, 1), (2, 0), (2, h.kind.code), (2, 0), (4, h.payloadLength), (8, h.streamId),
      (8, h.sequence)] ++ []) := by
  simp [FrameHeader.encode, pack]

lemma FrameHeader.length_encode (h : FrameHeader) : h.encode.length = headerLen := by
  rw [h.encode_eq]
  simp [length_pack, headerLen]

/-- A header is read back from its bytes. -/
lemma FrameHeader.decode_encode {h : FrameHeader} {maxPayload : ℕ} (hf : h.Fits maxPayload) :
    FrameHeader.decode h.encode maxPayload = .ok h := by
  have hkind : h.kind.code < 256 ^ 2 := by cases h.kind <;> decide
  have hat {n x o : ℕ} (before after : List (ℕ × ℕ)) (hx : x < 256 ^ n)
      (ho : 4 + (before.map Prod.fst).sum = o)
      (hfs : before ++ (n, x) :: after = [(2, 1), (2, 0), (2, h.kind.code), (2, 0),
        (4, h.payloadLength), (8, h.streamId), (8, h.sequence)]) : numberAt h.encode o n = x := by
    rw [h.encode_eq, ← hfs]
    exact numberAt_pack before after hx ho
  have hmagic : slice h.encode 0 4 = [0x41, 0x53, 0x54, 0x52] := by
    simp [slice, FrameHeader.encode]
  have hmajor : numberAt h.encode 4 2 = 1 := hat [] _ (by norm_num) rfl rfl
  have hminor : numberAt h.encode 6 2 = 0 := hat [_] _ (by norm_num) rfl rfl
  have hcode : numberAt h.encode 8 2 = h.kind.code := hat [_, _] _ hkind rfl rfl
  have hflags : numberAt h.encode 10 2 = 0 := hat [_, _, _] _ (by norm_num) rfl rfl
  have hlen : numberAt h.encode 12 4 = h.payloadLength := hat [_, _, _, _] _ hf.payload rfl rfl
  have hstream : numberAt h.encode 16 8 = h.streamId := hat [_, _, _, _, _] _ hf.stream rfl rfl
  have hseq : numberAt h.encode 24 8 = h.sequence := hat [_, _, _, _, _, _] [] hf.sequence rfl rfl
  have hwithin : ¬ maxPayload < h.payloadLength := not_lt.mpr hf.within
  unfold FrameHeader.decode
  simp only [h.length_encode, lt_irrefl, if_false, hmagic, hmajor, hminor, hcode, hflags, hlen,
    hstream, hseq, hwithin, MessageKind.fromU16_code, CoreResult.ok_bind, ne_eq, not_true_eq_false,
    or_self]

/-- A message as it is handed to `encode_frame`; its sequence number is its place. -/
structure Message where
  kind : MessageKind
  streamId : UInt64
  payload : Bytes

/-- The frame a reader should make of a message. -/
def Message.frame (m : Message) (sequence : ℕ) : Frame :=
  ⟨⟨m.kind, m.payload.length % 2 ^ 32, m.streamId.toNat, sequence⟩, m.payload⟩

/-- The bytes of messages with sequence numbers from a first one on. -/
def encodeAll (maxPayload : ℕ) : ℕ → List Message → CoreResult Bytes
  | _, [] => .ok []
  | sequence, m :: ms => do
    let b ← encodeFrameWithin maxPayload m.kind m.streamId.toNat sequence m.payload
    let rest ← encodeAll maxPayload (sequence + 1) ms
    .ok (b ++ rest)

def framesFrom : ℕ → List Message → List Frame
  | _, [] => []
  | sequence, m :: ms => m.frame sequence :: framesFrom (sequence + 1) ms

lemma encodeFrameWithin_eq_ok {maxPayload : ℕ} {m : Message} {sequence : ℕ} {b : Bytes}
    (h : encodeFrameWithin maxPayload m.kind m.streamId.toNat sequence m.payload = .ok b) :
    b = (m.frame sequence).header.encode ++ m.payload ∧ m.payload.length ≤ maxPayload ∧
      (m.kind.isNegotiation ↔ m.streamId.toNat = 0) := by
  rw [encodeFrameWithin] at h
  rw [MessageKind.isNegotiation_iff]
  split_ifs at h with hlen hkind hstream hstream
  · exact ⟨(Except.ok.inj h).symm, not_lt.mp hlen, by simp [hkind, not_not.mp hstream]⟩
  · exact ⟨(Except.ok.inj h).symm, not_lt.mp hlen, by simp [hkind, hstream]⟩

namespace FrameReader
open Incremental
variable {maxPayload : ℕ} {r r' : FrameReader}

/-- A reader whose turn it is takes the frame of a message. -/
lemma pass_encoded {m : Message} {b more : Bytes} (hneg : r.negotiated ∨ m.kind.isNegotiation)
    (hseq : r.nextSequence + 1 < 2 ^ 64) (hlen : m.payload.length < 2 ^ 32)
    (hb : encodeFrameWithin maxPayload m.kind m.streamId.toNat r.nextSequence m.payload = .ok b)
    (hbuf : r.buf = b ++ more) :
    r.pass maxPayload = .item (m.frame r.nextSequence)
      ⟨more, r.nextSequence + 1, r.negotiated || m.kind.isNegotiation, r.failed⟩ := by
  obtain ⟨rfl, hmax, hstream⟩ := encodeFrameWithin_eq_ok hb
  have hmod : m.payload.length % 2 ^ 32 = m.payload.length := Nat.mod_eq_of_lt hlen
  have hheader : (m.frame r.nextSequence).header.encode.length = headerLen :=
    FrameHeader.length_encode _
  have hpl : (m.frame r.nextSequence).header.payloadLength = m.payload.length := hmod
  rw [List.append_assoc] at hbuf
  have hfits : (m.frame r.nextSequence).header.Fits maxPayload :=
    ⟨Nat.mod_lt _ (by norm_num), hpl.trans_le hmax, m.streamId.toNat_lt, by
      change r.nextSequence < 2 ^ 64
      omega⟩
  have hcheck : r.checkHeader maxPayload = .ok (m.frame r.nextSequence).header := by
    have hfirst : ¬ (¬ r.negotiated ∧ ¬ m.kind.isNegotiation) := by
      rw [not_and_or, not_not, not_not]
      exact hneg
    have hkind : ¬ (m.kind.isNegotiation ∧ m.streamId.toNat ≠ 0 ∨
        ¬ m.kind.isNegotiation ∧ m.streamId.toNat = 0) := by
      rw [hstream]
      tauto
    rw [checkHeader, hbuf, List.take_left' hheader, FrameHeader.decode_encode hfits,
      CoreResult.ok_bind]
    simp only [CoreResult.guard_eq_ok_iff]
    exact ⟨not_not.mpr rfl, hfirst, hkind, trivial⟩
  have hlong : headerLen + (m.frame r.nextSequence).header.payloadLength ≤ r.buf.length := by
    rw [hbuf, List.length_append, hheader, hpl, List.length_append]
    omega
  have hpayload : (m.frame r.nextSequence).payload =
      slice r.buf headerLen (m.frame r.nextSequence).header.payloadLength := by
    rw [hbuf, hpl, slice_middle hheader rfl]
    rfl
  rw [pass_of_item hlong hcheck (by omega) hpayload, hpl, hbuf, ← hheader,
    List.drop_append, List.drop_append]
  simp [Message.frame]

/-- The frames of messages are read one after the other. -/
lemma drains_encodeAll {ms : List Message}
    (hfirst : r.negotiated ∨ ∀ m ∈ ms.head?, m.kind.isNegotiation)
    (hcount : r.nextSequence + ms.length < 2 ^ 64) (hlen : ∀ m ∈ ms, m.payload.length < 2 ^ 32)
    (hbuf : encodeAll maxPayload r.nextSequence ms = .ok r.buf) :
    ∃ r', Drains (reader maxPayload) r (framesFrom r.nextSequence ms) none r' := by
  induction ms generalizing r with
  | nil =>
    refine ⟨r, .wait ?_⟩
    have hempty : r.buf = [] := (Except.ok.inj hbuf).symm
    simp [reader, pass, hempty, headerLen]
  | cons m ms ih =>
    obtain ⟨b, hb, hbuf⟩ := CoreResult.bind_eq_ok hbuf
    obtain ⟨rest, hrest, hbuf⟩ := CoreResult.bind_eq_ok hbuf
    rw [List.length_cons] at hcount
    have hneg : r.negotiated ∨ m.kind.isNegotiation := by
      rcases hfirst with h | h
      · exact Or.inl h
      · exact Or.inr (h m rfl)
    have hitem := pass_encoded hneg (by omega) (hlen m (by simp)) hb (Except.ok.inj hbuf).symm
    obtain ⟨r', hr'⟩ := ih (r := ⟨rest, r.nextSequence + 1,
        r.negotiated || m.kind.isNegotiation, r.failed⟩)
      (Or.inl (by simpa using hneg)) (by simp only; omega)
      (fun m' hm' => hlen m' (List.mem_cons_of_mem _ hm')) hrest
    exact ⟨r', .item (by simp only [reader, hitem]) hr'⟩

lemma payloadLength_lt {bytes : Bytes} {h : FrameHeader}
    (hd : FrameHeader.decode bytes maxPayload = .ok h) : h.payloadLength < 2 ^ 32 := by
  unfold FrameHeader.decode at hd
  simp only [CoreResult.guard_eq_ok_iff, CoreResult.bind_eq_ok_iff] at hd
  obtain ⟨-, -, -, kind, -, -, -, hd⟩ := hd
  obtain rfl := Except.ok.inj hd
  exact numberAt_lt bytes 12 4

/-- Frames that were taken have short payloads and are counted without wrapping around. -/
lemma counts_of_drains {fs : List Frame} {o : Option (CoreError × ℕ)}
    (h : Drains (reader maxPayload) r fs o r') (hr : r.nextSequence < 2 ^ 64) :
    (∀ f ∈ fs, f.payload.length < 2 ^ 32) ∧ r.nextSequence + fs.length < 2 ^ 64 := by
  induction h with
  | wait _ => exact ⟨by simp, hr⟩
  | refuse _ => exact ⟨by simp, hr⟩
  | @item r r₁ s f fs o hp _ ih =>
    cases hpass : r.pass maxPayload <;> simp only [reader, hpass] at hp <;> cases hp
    obtain ⟨hlen, hcheck, hseq, hpayload, rfl⟩ := pass_eq_item hpass
    obtain ⟨hshort, hcount⟩ := ih (by simp only; omega)
    obtain ⟨header, hdecode, hcheck⟩ := CoreResult.bind_eq_ok hcheck
    simp only [CoreResult.guard_eq_ok_iff] at hcheck
    obtain ⟨-, -, -, hheader⟩ := hcheck
    obtain rfl := Except.ok.inj hheader
    refine ⟨?_, by simp only [List.length_cons] at hcount ⊢; omega⟩
    intro g hg
    rcases List.mem_cons.mp hg with rfl | hg
    · rw [hpayload]
      exact (List.length_take_le _ _).trans_lt (payloadLength_lt hdecode)
    · exact hshort g hg

lemma length_framesFrom (sequence : ℕ) (ms : List Message) :
    (framesFrom sequence ms).length = ms.length := by
  induction ms generalizing sequence with
  | nil => rfl
  | cons m ms ih => simp [framesFrom, ih]

lemma exists_mem_framesFrom {m : Message} {ms : List Message} (h : m ∈ ms) (sequence : ℕ) :
    ∃ f ∈ framesFrom sequence ms, f.payload = m.payload := by
  induction ms generalizing sequence with
  | nil => cases h
  | cons n ms ih =>
    rcases List.mem_cons.mp h with rfl | h
    · exact ⟨_, List.mem_cons_self, rfl⟩
    · obtain ⟨f, hf, hpayload⟩ := ih h (sequence + 1)
      exact ⟨f, List.mem_cons_of_mem _ hf, hpayload⟩

/-- Every cutting delivers the frames of the messages. -/
def DeliversAll (maxPayload : ℕ) (ms : List Message) (stream : Bytes) : Prop :=
  ∀ chunks : List Bytes, chunks.flatten = stream →
    new.feedAll maxPayload chunks = (framesFrom 0 ms, none)

lemma deliversAll_iff {ms : List Message} {stream : Bytes}
    (hfirst : ∀ m ∈ ms.head?, m.kind.isNegotiation) (henc : encodeAll maxPayload 0 ms = .ok stream) :
    DeliversAll maxPayload ms stream ↔
      (∀ m ∈ ms, m.payload.length < 2 ^ 32) ∧ ms.length < 2 ^ 64 := by
  constructor
  · intro h
    have hone := h [stream] (by simp)
    rw [feedAll_eq_feeds rfl, Reader.feeds] at hone
    have hd := drains_drain (reader maxPayload) ((reader maxPayload).push new stream)
    generalize (reader maxPayload).drain ((reader maxPayload).push new stream) = d at hone hd
    obtain ⟨fs, o, r'⟩ := d
    cases o with
    | some e => simp at hone
    | none =>
      simp only [Reader.feeds, List.append_nil, Prod.mk.injEq, and_true] at hone
      subst hone
      obtain ⟨hshort, hcount⟩ := counts_of_drains hd (by decide : (0 : ℕ) < 2 ^ 64)
      refine ⟨fun m hm => ?_, ?_⟩
      · obtain ⟨f, hf, hpayload⟩ := exists_mem_framesFrom hm 0
        exact hpayload ▸ hshort f hf
      · rw [length_framesFrom] at hcount
        exact (Nat.le_add_left _ _).trans_lt hcount
  · rintro ⟨hlen, hcount⟩ chunks hchunks
    obtain ⟨r', hd⟩ := drains_encodeAll (r := new.push stream) (Or.inr hfirst)
      (by simpa [new, push] using hcount) hlen henc
    rw [feedAll_eq_feeds rfl]
    exact Reader.feeds_of_drains rfl (hchunks ▸ hd)

/-- How a stream is cut changes what is delivered exactly when a call that completes frames also
brings a frame that is refused. Messages within the limits come through every cutting exactly when
their lengths and their number fit the header's fields. -/
theorem framing_and_chunks (maxPayload : ℕ) :
    (∀ chunks : List Bytes,
      new.feedAll maxPayload chunks = decodeStream maxPayload chunks.flatten ↔
        ¬ DropsFrames maxPayload chunks) ∧
    ∀ (ms : List Message) (stream : Bytes),
      (∀ m ∈ ms.head?, m.kind.isNegotiation) → encodeAll maxPayload 0 ms = .ok stream →
      (DeliversAll maxPayload ms stream ↔
        (∀ m ∈ ms, m.payload.length < 2 ^ 32) ∧ ms.length < 2 ^ 64) :=
  ⟨feedAll_eq_iff maxPayload, fun _ _ => deliversAll_iff⟩

/-- A hello and an invocation after it. -/
def twoMessages : List Message := [⟨.hello, 0, [1, 2]⟩, ⟨.invoke, 1, [3]⟩]

theorem framing_and_chunks_twoMessages : ∃ stream, encodeAll 64 0 twoMessages = .ok stream ∧
    DeliversAll 64 twoMessages stream :=
  ⟨_, rfl, ((framing_and_chunks 64).2 twoMessages _ (by decide) rfl).mpr (by decide)⟩

/-- The hello is handed over, or lost, by where the stream is cut before a refused header. -/
theorem hello_lost_with_bad_header :
    let hello := (FrameHeader.mk .hello 0 0 0).encode
    let bad := List.replicate 32 (0 : UInt8)
    (new.feedAll 64 [hello, bad]).1.length = 1 ∧ (new.feedAll 64 [hello ++ bad]).1 = [] := by
  decide +kernel

end FrameReader

end encoding

end CarolinaDB
