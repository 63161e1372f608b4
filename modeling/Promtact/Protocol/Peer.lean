import Promtact.Protocol.Frame
import Promtact.Storage.RaftWal

/-!
# Messages between nodes

The fixed layout of a message and the snapshot behind it (`peer.go`). The numbers of a
message are those that their Go types hold (`InRange`); everything that is decoded is.
The codes of entry kinds and operations are the ones of the log records.
-/

namespace Promtact.Protocol

open Bytes (slice zeros)
open Raft (Message MessageType Word)
open Storage.RaftWal (kindCode operationCode operationOf kindOf_kindCode operationOf_operationCode)

def peerFixedSize : Nat := 176

/-! ## Codes -/

def typeCode : MessageType → UInt8
  | .preVote => 0
  | .preVoteResponse => 1
  | .requestVote => 2
  | .requestVoteResponse => 3
  | .append => 4
  | .appendResponse => 5
  | .timeoutNow => 6
  | .installSnapshot => 7
  | .installSnapshotResponse => 8
  | .other code => UInt8.ofNat (code + 9)

def typeOf (code : UInt8) : MessageType :=
  match code.toNat with
  | 0 => .preVote
  | 1 => .preVoteResponse
  | 2 => .requestVote
  | 3 => .requestVoteResponse
  | 4 => .append
  | 5 => .appendResponse
  | 6 => .timeoutNow
  | 7 => .installSnapshot
  | 8 => .installSnapshotResponse
  | n + 9 => .other (Fin.ofNat 247 n)

theorem typeOf_typeCode (type : MessageType) : typeOf (typeCode type) = type := by
  cases type with
  | other code =>
    have hcode : (UInt8.ofNat (code + 9)).toNat = code + 9 :=
      UInt8.toNat_ofNat_of_lt (by have := code.isLt; simp [UInt8.size]; omega)
    simp only [typeOf, typeCode, hcode, Fin.ofNat_val_eq_self]
  | _ => rfl

def flag (b : Bool) : UInt8 := if b then 1 else 0

/-! ## Encoding -/

/-- The fields in their order, with the gaps between them. -/
def peerFields (m : Message) : List (List UInt8) :=
  [[typeCode m.type], [flag m.reject], [flag m.hasEntry], zeros 1,
    Bytes.put 4 m.fromID, Bytes.put 4 m.toID,
    Bytes.put 8 m.term, Bytes.put 8 m.logIndex, Bytes.put 8 m.logTerm, Bytes.put 8 m.commit,
    Bytes.put 8 m.matchIndex, Bytes.put 8 m.context.toNat, Bytes.put 8 m.snapshotIndex,
    Bytes.put 8 m.snapshotTerm,
    Bytes.put 8 m.entry.term, Bytes.put 8 m.entry.command.toNat,
    [kindCode m.entry.kind], [operationCode m.entry.operation], zeros 6,
    Bytes.put 8 m.entry.oldVoters.toNat, Bytes.put 8 m.entry.newVoters.toNat,
    Bytes.put 8 m.entry.clientID.toNat, Bytes.put 8 m.entry.requestID.toNat,
    Bytes.put 8 m.entry.key.toNat, Bytes.put 8 m.entry.value.toNat,
    Bytes.put 8 m.snapshotOld.toNat, Bytes.put 8 m.snapshotNew.toNat,
    Bytes.put 4 m.snapshot.length, zeros 8, m.snapshot]

def encodePeer (m : Message) : List UInt8 := (peerFields m).flatten

/-! ## Decoding -/

def byteAt (data : List UInt8) (first : Nat) : UInt8 :=
  UInt8.ofNat (Bytes.get (slice data first (first + 1)))

def uint32At (data : List UInt8) (first : Nat) : Nat := Bytes.get (slice data first (first + 4))

def uint64At (data : List UInt8) (first : Nat) : Nat := Bytes.get (slice data first (first + 8))

def wordAt (data : List UInt8) (first : Nat) : Word := BitVec.ofNat 64 (uint64At data first)

def decodePeer (data : List UInt8) : Except Error Message :=
  if data.length < peerFixedSize then throw .frame
  else if uint32At data 164 ≠ data.length - peerFixedSize then throw .frame
  else return {
    type := typeOf (byteAt data 0)
    reject := byteAt data 1 ≠ 0
    hasEntry := byteAt data 2 ≠ 0
    fromID := uint32At data 4
    toID := uint32At data 8
    term := uint64At data 12
    logIndex := uint64At data 20
    logTerm := uint64At data 28
    commit := uint64At data 36
    matchIndex := uint64At data 44
    context := wordAt data 52
    snapshotIndex := uint64At data 60
    snapshotTerm := uint64At data 68
    entry := {
      term := uint64At data 76
      command := wordAt data 84
      kind := Storage.RaftWal.kindOf (byteAt data 92)
      operation := operationOf (byteAt data 93)
      oldVoters := wordAt data 100
      newVoters := wordAt data 108
      clientID := wordAt data 116
      requestID := wordAt data 124
      key := wordAt data 132
      value := wordAt data 140 }
    snapshotOld := wordAt data 148
    snapshotNew := wordAt data 156
    snapshot := data.drop peerFixedSize }

/-! ## Reading back -/

theorem flag_ne_zero (b : Bool) : (decide (flag b ≠ 0)) = b := by
  cases b <;> rfl

section Bounds

variable {data : List UInt8} {first : Nat}

theorem uint32At_lt (hl : first + 4 ≤ data.length) : uint32At data first < 2 ^ 32 := by
  have := Bytes.get_lt (slice data first (first + 4))
  rw [Bytes.length_slice hl] at this
  unfold uint32At
  simpa using this

theorem uint64At_lt (hl : first + 8 ≤ data.length) : uint64At data first < 2 ^ 64 := by
  have := Bytes.get_lt (slice data first (first + 8))
  rw [Bytes.length_slice hl] at this
  unfold uint64At
  simpa using this

end Bounds

/-! The fields of a record whose first lengths are those of a layout. -/

section Fields

variable {fields : List (List UInt8)} {layout rest : List Nat}
variable (hfields : fields.map List.length = layout ++ rest) (i first : Nat)
include hfields

theorem slice_fields {field : List UInt8} (hi : fields[i]? = some field)
    (hf : i ≤ layout.length ∧ (layout.take i).sum = first) :
    slice fields.flatten first (first + field.length) = field := by
  refine Bytes.slice_flatten hi ?_ rfl
  rw [hfields, List.take_append_of_le_length hf.1]
  exact hf.2

theorem byteAt_fields {x : UInt8} (hi : fields[i]? = some [x])
    (hf : i ≤ layout.length ∧ (layout.take i).sum = first) : byteAt fields.flatten first = x := by
  have hslice := slice_fields hfields i first hi hf
  unfold byteAt
  rw [List.length_singleton] at hslice
  rw [hslice]
  simp [Bytes.get]

theorem get_fields {width x : Nat} (hi : fields[i]? = some (Bytes.put width x))
    (hf : i ≤ layout.length ∧ (layout.take i).sum = first) (hx : x < 256 ^ width) :
    Bytes.get (slice fields.flatten first (first + width)) = x := by
  have hslice := slice_fields hfields i first hi hf
  rw [Bytes.length_put] at hslice
  rw [hslice, Bytes.get_put_of_lt hx]

theorem uint32At_fields {x : Nat} (hi : fields[i]? = some (Bytes.put 4 x))
    (hf : i ≤ layout.length ∧ (layout.take i).sum = first) (hx : x < 2 ^ 32) :
    uint32At fields.flatten first = x :=
  get_fields hfields i first hi hf hx

theorem uint64At_fields {x : Nat} (hi : fields[i]? = some (Bytes.put 8 x))
    (hf : i ≤ layout.length ∧ (layout.take i).sum = first) (hx : x < 2 ^ 64) :
    uint64At fields.flatten first = x :=
  get_fields hfields i first hi hf hx

theorem wordAt_fields {x : Word} (hi : fields[i]? = some (Bytes.put 8 x.toNat))
    (hf : i ≤ layout.length ∧ (layout.take i).sum = first) : wordAt fields.flatten first = x := by
  unfold wordAt
  rw [uint64At_fields hfields i first hi hf x.isLt, BitVec.ofNat_toNat, BitVec.setWidth_eq]

end Fields

/-! ## Messages -/

/-- The numbers of a message that are 64-bit numbers in Go. -/
def numbers (m : Message) : List Nat :=
  [m.term, m.logIndex, m.logTerm, m.commit, m.matchIndex, m.snapshotIndex, m.snapshotTerm,
    m.entry.term]

/-- The numbers of a message are those of their Go types. -/
def InRange (m : Message) : Prop :=
  m.fromID < 2 ^ 32 ∧ m.toID < 2 ^ 32 ∧ ∀ n ∈ numbers m, n < 2 ^ 64

instance (m : Message) : Decidable (InRange m) := by
  unfold InRange
  infer_instance

variable {m : Message} {data : List UInt8}

/-- The lengths of the fields in front of the snapshot. -/
def peerLayout : List Nat :=
  [1, 1, 1, 1, 4, 4, 8, 8, 8, 8, 8, 8, 8, 8, 8, 8, 1, 1, 6, 8, 8, 8, 8, 8, 8, 8, 8, 4, 8]

theorem lengths_peerFields :
    (peerFields m).map List.length = peerLayout ++ [m.snapshot.length] := by
  simp [peerFields, peerLayout, zeros]

theorem length_encodePeer : (encodePeer m).length = peerFixedSize + m.snapshot.length := by
  rw [encodePeer, List.length_flatten, lengths_peerFields, List.sum_append, List.sum_singleton]
  rfl

theorem drop_encodePeer : (encodePeer m).drop peerFixedSize = m.snapshot := by
  have hslice := slice_fields (lengths_peerFields (m := m)) 29 peerFixedSize rfl (by decide)
  unfold slice at hslice
  rwa [List.take_of_length_le (by
    rw [List.length_drop, ← encodePeer, length_encodePeer])] at hslice

/-- Reading a message back gives every field of it. -/
theorem decodePeer_encodePeer (hin : InRange m) (hlen : m.snapshot.length < 2 ^ 32) :
    decodePeer (encodePeer m) = .ok m := by
  obtain ⟨hfrom, hto, hnum⟩ := hin
  simp only [numbers, List.mem_cons, List.not_mem_nil, or_false, forall_eq_or_imp, forall_eq] at hnum
  obtain ⟨hterm, hindex, hlogTerm, hcommit, hmatch, hsnapIndex, hsnapTerm, hentry⟩ := hnum
  have hl := lengths_peerFields (m := m)
  have hsize := length_encodePeer (m := m)
  have hlength : uint32At (encodePeer m) 164 = m.snapshot.length :=
    uint32At_fields hl 27 164 rfl (by decide) hlen
  unfold decodePeer
  rw [if_neg (by omega), if_neg (by omega), drop_encodePeer]
  unfold encodePeer
  rw [byteAt_fields hl 0 0 rfl (by decide), typeOf_typeCode,
    byteAt_fields hl 1 1 rfl (by decide), flag_ne_zero,
    byteAt_fields hl 2 2 rfl (by decide), flag_ne_zero,
    uint32At_fields hl 4 4 rfl (by decide) hfrom, uint32At_fields hl 5 8 rfl (by decide) hto,
    uint64At_fields hl 6 12 rfl (by decide) hterm, uint64At_fields hl 7 20 rfl (by decide) hindex,
    uint64At_fields hl 8 28 rfl (by decide) hlogTerm,
    uint64At_fields hl 9 36 rfl (by decide) hcommit,
    uint64At_fields hl 10 44 rfl (by decide) hmatch, wordAt_fields hl 11 52 rfl (by decide),
    uint64At_fields hl 12 60 rfl (by decide) hsnapIndex,
    uint64At_fields hl 13 68 rfl (by decide) hsnapTerm,
    uint64At_fields hl 14 76 rfl (by decide) hentry, wordAt_fields hl 15 84 rfl (by decide),
    byteAt_fields hl 16 92 rfl (by decide), kindOf_kindCode,
    byteAt_fields hl 17 93 rfl (by decide), operationOf_operationCode,
    wordAt_fields hl 19 100 rfl (by decide), wordAt_fields hl 20 108 rfl (by decide),
    wordAt_fields hl 21 116 rfl (by decide), wordAt_fields hl 22 124 rfl (by decide),
    wordAt_fields hl 23 132 rfl (by decide), wordAt_fields hl 24 140 rfl (by decide),
    wordAt_fields hl 25 148 rfl (by decide), wordAt_fields hl 26 156 rfl (by decide)]
  rfl

/-- What is decoded are the numbers of their Go types. -/
theorem inRange_of_decodePeer (h : decodePeer data = .ok m) :
    InRange m ∧ peerFixedSize + m.snapshot.length = data.length ∧ m.snapshot.length < 2 ^ 32 := by
  unfold decodePeer at h
  split at h
  · cases h
  rename_i hfixed
  split at h
  · cases h
  rename_i hlength
  rw [not_not] at hlength
  cases h
  unfold peerFixedSize at hfixed hlength ⊢
  have hlen32 : uint32At data 164 < 2 ^ 32 := uint32At_lt (by omega)
  refine ⟨⟨uint32At_lt (by omega), uint32At_lt (by omega), fun n hn => ?_⟩, ?_, ?_⟩
  · simp only [numbers, List.mem_cons, List.not_mem_nil, or_false] at hn
    rcases hn with rfl | rfl | rfl | rfl | rfl | rfl | rfl | rfl <;>
      exact uint64At_lt (by omega)
  · simp only [List.length_drop]
    omega
  · simp only [List.length_drop]
    omega

/-- Decoding is stable: what was accepted is encoded and decoded to the same message. -/
theorem decodePeer_stable (h : decodePeer data = .ok m) : decodePeer (encodePeer m) = .ok m := by
  obtain ⟨hin, _, hlen⟩ := inRange_of_decodePeer h
  exact decodePeer_encodePeer hin hlen

end Promtact.Protocol
