import CarolinaDB.CoreError
import CarolinaDB.LittleEndian

/-!
# Wire frames

A frame is a header of 32 bytes and a payload no longer than the frame limit.
Negotiation uses stream zero, every other kind a stream of its own.
-/
namespace CarolinaDB

inductive MessageKind
  | hello | helloAck | invoke | reply | resolveRequest | resolveReply | read | readReply
  | protocolRecord | snapshotManifest | snapshotChunk | consensus | admin | adminReply
  deriving DecidableEq, Repr

/-- The code of a kind in the header. -/
def MessageKind.code : MessageKind → ℕ
  | hello => 1
  | helloAck => 2
  | invoke => 3
  | reply => 4
  | resolveRequest => 5
  | resolveReply => 6
  | read => 7
  | readReply => 8
  | protocolRecord => 9
  | snapshotManifest => 10
  | snapshotChunk => 11
  | consensus => 12
  | admin => 13
  | adminReply => 14

structure FrameHeader where
  kind : MessageKind
  payloadLength : ℕ
  streamId : ℕ
  sequence : ℕ
  deriving DecidableEq, Repr

/-- Magic, version 1.0, kind, no flags, payload length, stream and sequence. -/
def FrameHeader.encode (h : FrameHeader) : Bytes :=
  [0x41, 0x53, 0x54, 0x52] ++ littleEndian 2 1 ++ littleEndian 2 0 ++ littleEndian 2 h.kind.code ++
    littleEndian 2 0 ++ littleEndian 4 h.payloadLength ++ littleEndian 8 h.streamId ++
    littleEndian 8 h.sequence

/-- The frame limit of the first version of the limits. -/
def maxFramePayload : ℕ := 16 * 1024 * 1024

def encodeFrame (kind : MessageKind) (streamId sequence : ℕ) (payload : Bytes) :
    CoreResult Bytes :=
  if maxFramePayload < payload.length then
    .error (.new .resourceLimit "payload exceeds max_frame_payload")
  else if kind = .hello ∨ kind = .helloAck then
    if streamId ≠ 0 then .error (.new .protocolError "negotiation frames use stream 0")
    else .ok ((FrameHeader.mk kind payload.length streamId sequence).encode ++ payload)
  else if streamId = 0 then
    .error (.new .protocolError "non-negotiation frames need a nonzero stream id")
  else .ok ((FrameHeader.mk kind payload.length streamId sequence).encode ++ payload)

/-- Peer traffic is framed exactly up to the frame limit. -/
lemma encodeFrame_consensus_ok_iff (sequence : ℕ) (payload : Bytes) :
    (∃ frame, encodeFrame .consensus 1 sequence payload = .ok frame) ↔
      payload.length ≤ maxFramePayload := by
  unfold encodeFrame
  by_cases hlen : maxFramePayload < payload.length
  · simp [hlen]
  · simp only [if_neg hlen]
    simpa using not_lt.mp hlen

end CarolinaDB
