import Promtact.Protocol.Peer

/-!
# Messages of clients, and the wire

Requests and responses (`client.go`), and the result about the whole wire format: what is
encoded and framed is read back, frame by frame and field by field.
-/

namespace Promtact.Protocol

open Bytes (slice zeros)
open Raft (Message Word)

/-! ## Requests -/

/-- Operations are numbered from one; `other` are zero and the numbers behind the named
ones. -/
inductive ClientOp
  | put | delete | get | status
  | other (code : Fin 252)
  deriving DecidableEq, Repr

def ClientOp.code : ClientOp → UInt8
  | .put => 1
  | .delete => 2
  | .get => 3
  | .status => 4
  | .other code => if code.val = 0 then 0 else UInt8.ofNat (code.val + 4)

def clientOpOf (code : UInt8) : ClientOp :=
  match code.toNat with
  | 0 => .other 0
  | 1 => .put
  | 2 => .delete
  | 3 => .get
  | 4 => .status
  | n + 5 => .other (Fin.ofNat 252 (n + 1))

/-- The operations with a name. -/
def ClientOp.Defined : ClientOp → Prop
  | .other _ => False
  | _ => True

instance (op : ClientOp) : Decidable op.Defined := by
  unfold ClientOp.Defined
  split <;> infer_instance

structure ClientRequest where
  operation : ClientOp
  clientID : Word
  requestID : Word
  key : Word
  value : Word
  deriving DecidableEq, Repr

def clientRequestSize : Nat := 40

def requestFields (request : ClientRequest) : List (List UInt8) :=
  [[request.operation.code], zeros 7, Bytes.put 8 request.clientID.toNat,
    Bytes.put 8 request.requestID.toNat, Bytes.put 8 request.key.toNat,
    Bytes.put 8 request.value.toNat]

def encodeClientRequest (request : ClientRequest) : List UInt8 := (requestFields request).flatten

def decodeClientRequest (data : List UInt8) : Except Error ClientRequest :=
  if data.length ≠ clientRequestSize then throw .frame
  else
    let request : ClientRequest := {
      operation := clientOpOf (byteAt data 0)
      clientID := wordAt data 8
      requestID := wordAt data 16
      key := wordAt data 24
      value := wordAt data 32 }
    if request.operation.Defined then return request else throw .clientOperation

theorem length_encodeClientRequest (request : ClientRequest) :
    (encodeClientRequest request).length = clientRequestSize := by
  simp [encodeClientRequest, requestFields, zeros, clientRequestSize]

theorem clientOpOf_code {op : ClientOp} (hop : op.Defined) : clientOpOf op.code = op := by
  cases op with
  | other code => exact hop.elim
  | _ => rfl

theorem decodeClientRequest_encode {request : ClientRequest} (hop : request.operation.Defined) :
    decodeClientRequest (encodeClientRequest request) = .ok request := by
  have hl : (requestFields request).map List.length = [1, 7, 8, 8, 8, 8] ++ [] := by
    simp [requestFields, zeros]
  unfold decodeClientRequest
  rw [if_neg (by rw [length_encodeClientRequest]; simp)]
  unfold encodeClientRequest
  rw [byteAt_fields hl 0 0 rfl (by decide), clientOpOf_code hop,
    wordAt_fields hl 2 8 rfl (by decide), wordAt_fields hl 3 16 rfl (by decide),
    wordAt_fields hl 4 24 rfl (by decide), wordAt_fields hl 5 32 rfl (by decide)]
  exact if_pos hop

/-! ## Responses -/

inductive Status
  | ok | notLeader | busy | invalid | notFound | timeout | internal
  | other (code : Fin 65529)
  deriving DecidableEq, Repr

def Status.code : Status → Nat
  | .ok => 0
  | .notLeader => 1
  | .busy => 2
  | .invalid => 3
  | .notFound => 4
  | .timeout => 5
  | .internal => 6
  | .other code => code.val + 7

def statusOf : Nat → Status
  | 0 => .ok
  | 1 => .notLeader
  | 2 => .busy
  | 3 => .invalid
  | 4 => .notFound
  | 5 => .timeout
  | 6 => .internal
  | n + 7 => .other (Fin.ofNat 65529 n)

theorem statusOf_code (status : Status) : statusOf status.code = status := by
  cases status with
  | other code => exact congrArg Status.other (Fin.ext (Nat.mod_eq_of_lt code.isLt))
  | _ => rfl

theorem Status.code_lt (status : Status) : status.code < 256 ^ 2 := by
  cases status with
  | other code =>
    have := code.isLt
    simp only [Status.code]
    omega
  | _ => decide

structure ClientResponse where
  status : Status
  leader : BitVec 32 := 0
  requestID : Word := 0
  value : Word := 0
  commit : Word := 0
  deriving DecidableEq, Repr

def clientResponseSize : Nat := 32

def responseFields (response : ClientResponse) : List (List UInt8) :=
  [Bytes.put 2 response.status.code, zeros 2, Bytes.put 4 response.leader.toNat,
    Bytes.put 8 response.requestID.toNat, Bytes.put 8 response.value.toNat,
    Bytes.put 8 response.commit.toNat]

def encodeClientResponse (response : ClientResponse) : List UInt8 := (responseFields response).flatten

def decodeClientResponse (data : List UInt8) : Except Error ClientResponse :=
  if data.length ≠ clientResponseSize then throw .frame
  else return {
    status := statusOf (Bytes.get (slice data 0 2))
    leader := BitVec.ofNat 32 (uint32At data 4)
    requestID := wordAt data 8
    value := wordAt data 16
    commit := wordAt data 24 }

theorem length_encodeClientResponse (response : ClientResponse) :
    (encodeClientResponse response).length = clientResponseSize := by
  simp [encodeClientResponse, responseFields, zeros, clientResponseSize]

theorem decodeClientResponse_encode (response : ClientResponse) :
    decodeClientResponse (encodeClientResponse response) = .ok response := by
  have hl : (responseFields response).map List.length = [2, 2, 4, 8, 8, 8] ++ [] := by
    simp [responseFields, zeros]
  unfold decodeClientResponse
  rw [if_neg (by rw [length_encodeClientResponse]; simp)]
  unfold encodeClientResponse
  rw [get_fields hl 0 0 rfl (by decide) response.status.code_lt, statusOf_code,
    uint32At_fields hl 2 4 rfl (by decide) response.leader.isLt, BitVec.ofNat_toNat,
    BitVec.setWidth_eq, wordAt_fields hl 3 8 rfl (by decide), wordAt_fields hl 4 16 rfl (by decide),
    wordAt_fields hl 5 24 rfl (by decide)]
  rfl

/-! ## The wire -/

/-- The payload goes over the wire: it is written as a frame of its kind, whatever pieces the
writer takes, the frame is read back and nothing behind it, and the payload is decoded. -/
def Carries {α : Type} (kind : Kind) (payload : List UInt8) (decode : List UInt8 → Except Error α)
    (value : α) : Prop :=
  ∀ (w : Writer) (rest : List UInt8), w.Accepts → ∃ w' stream received,
    writeFrame w kind payload = (none, w') ∧ w'.written = w.written ++ stream ∧
    readFrame (stream ++ rest) = (.ok (kind, received), rest) ∧ decode received = .ok value

theorem carries {α : Type} {kind : Kind} {payload : List UInt8}
    {decode : List UInt8 → Except Error α} {value : α} (hlen : payload.length ≤ maxFrameSize)
    (hdecode : decode payload = .ok value) : Carries kind payload decode value := by
  intro w rest hw
  obtain ⟨w', hframe, hwritten, _⟩ := writeFrame_accepts hw kind hlen
  exact ⟨w', encodeFrame kind payload, payload, hframe, hwritten,
    readFrame_encodeFrame kind hlen rest, hdecode⟩

/-- Streams of frames are read back as they were written, every message that fits a frame
arrives as it was sent, and decoding a message of a node is stable. -/
theorem wire_round_trip :
    (∀ (frames : List (Kind × List UInt8)) (w : Writer) (rest : List UInt8),
      (∀ frame ∈ frames, frame.2.length ≤ maxFrameSize) → w.Accepts →
      ∃ w' stream, writeFrames w frames = (none, w') ∧ w'.written = w.written ++ stream ∧
        readFrames frames.length (stream ++ rest) = (.ok frames, rest)) ∧
    (∀ m : Message, InRange m → m.snapshot.length ≤ maxFrameSize - peerFixedSize →
      Carries .peer (encodePeer m) decodePeer m) ∧
    (∀ request : ClientRequest, request.operation.Defined →
      Carries .clientRequest (encodeClientRequest request) decodeClientRequest request) ∧
    (∀ response : ClientResponse,
      Carries .clientResponse (encodeClientResponse response) decodeClientResponse response) ∧
    ∀ (data : List UInt8) (m : Message), decodePeer data = .ok m →
      decodePeer (encodePeer m) = .ok m := by
  refine ⟨fun frames w rest hlen hw => ?_, fun m hin hlen => ?_, fun request hop => ?_,
    fun response => ?_, fun data m => decodePeer_stable⟩
  · obtain ⟨w', hframes, hwritten⟩ := writeFrames_accepts hw hlen
    exact ⟨w', encodeFrames frames, hframes, hwritten, readFrames_encodeFrames hlen rest⟩
  · unfold maxFrameSize peerFixedSize at hlen
    refine carries ?_ (decodePeer_encodePeer hin (by omega))
    rw [length_encodePeer]
    unfold maxFrameSize peerFixedSize
    omega
  · exact carries (by rw [length_encodeClientRequest]; decide) (decodeClientRequest_encode hop)
  · exact carries (by rw [length_encodeClientResponse]; decide) (decodeClientResponse_encode response)

/-- A writer that takes one byte at a time, and a message, a request and two frames that go
through it. -/
theorem wire_round_trip_bytewise :
    (∃ w' stream, writeFrames ⟨[], fun _ => (1, none)⟩ [(.peer, [1, 2, 3]), (.other 7, [])] =
        (none, w') ∧ w'.written = [] ++ stream ∧
      readFrames 2 (stream ++ [9]) = (.ok [(.peer, [1, 2, 3]), (.other 7, [])], [9])) ∧
    Carries .peer (encodePeer { type := .requestVote, fromID := 1, toID := 2, term := 1 }) decodePeer
      { type := .requestVote, fromID := 1, toID := 2, term := 1 } ∧
    Carries .clientRequest (encodeClientRequest ⟨.put, 1, 2, 3, 4⟩) decodeClientRequest
      ⟨.put, 1, 2, 3, 4⟩ := by
  obtain ⟨hframes, hpeer, hrequest, _⟩ := wire_round_trip
  exact ⟨hframes _ _ _ (by decide) fun _ => ⟨Nat.one_pos, rfl⟩, hpeer _ (by decide) (by decide),
    hrequest _ (by decide)⟩

end Promtact.Protocol
