import Mathlib

/-!
# Raft: the data

Entries, messages, hard state and snapshots (`types.go`, `persist.go`). Terms,
indexes and node IDs are natural numbers: nothing below depends on them wrapping.
Voter masks and the payload of an entry are 64-bit words.

A Go enumeration is a byte that may also hold a value without a name; such a
value is `other`, numbered from the first unnamed one.
-/

namespace Promtact.Raft

/-- A `uint64` that is used as a bit mask or as an opaque payload. -/
abbrev Word := BitVec 64

inductive State
  | follower | candidate | leader
  deriving DecidableEq, Repr

instance code_neZero : NeZero 252 := ⟨by decide⟩

inductive EntryKind
  | normal | jointConfig | finalConfig | noop
  | other (code : Fin 252)
  deriving DecidableEq, Repr

inductive CommandOp
  | legacy | put | delete
  | other (code : Fin 253)
  deriving DecidableEq, Repr

structure Entry where
  term : Nat := 0
  command : Word := 0
  kind : EntryKind := .normal
  oldVoters : Word := 0
  newVoters : Word := 0
  operation : CommandOp := .legacy
  clientID : Word := 0
  requestID : Word := 0
  key : Word := 0
  value : Word := 0
  deriving DecidableEq, Repr

inductive MessageType
  | preVote | preVoteResponse
  | requestVote | requestVoteResponse
  | append | appendResponse
  | timeoutNow
  | installSnapshot | installSnapshotResponse
  | other (code : Fin 247)
  deriving DecidableEq, Repr

structure Message where
  type : MessageType
  fromID : Nat
  toID : Nat
  term : Nat
  logIndex : Nat := 0
  logTerm : Nat := 0
  entry : Entry := {}
  hasEntry : Bool := false
  commit : Nat := 0
  reject : Bool := false
  matchIndex : Nat := 0
  context : Word := 0
  snapshotIndex : Nat := 0
  snapshotTerm : Nat := 0
  snapshot : List UInt8 := []
  snapshotOld : Word := 0
  snapshotNew : Word := 0
  deriving DecidableEq, Repr

structure HardState where
  term : Nat := 0
  votedFor : Nat := 0
  commit : Nat := 0
  deriving DecidableEq, Repr

structure Snapshot where
  lastIndex : Nat := 0
  lastTerm : Nat := 0
  state : List UInt8 := []
  oldVoters : Word := 0
  newVoters : Word := 0
  deriving DecidableEq, Repr

/-! ## The persistence boundary -/

/-- The text of an error that a store call returned. -/
abbrev StoreError := String

def errStorage : StoreError := "raft: stable storage failure"

/-- The ordered durability extension that compaction needs. A call returns the
error, if any, and the store after the call. -/
structure SnapshotStore (σ : Type) where
  saveSnapshot : Snapshot → σ → Option StoreError × σ
  compactLog : Nat → σ → Option StoreError × σ

/-- The persistence boundary. `snapshots` is the outcome of the type assertion
that asks a store for `SnapshotStore`. -/
class StableStore (σ : Type) where
  saveHardState : HardState → σ → Option StoreError × σ
  append : Nat → Entry → σ → Option StoreError × σ
  snapshots : Option (SnapshotStore σ)

/-- What the code panics with. -/
inductive Panic
  | duplicateNodeID
  | logIndexOutOfRange
  | nodeIDOutOfRange
  | outboundCapacityExceeded
  deriving DecidableEq, Repr

end Promtact.Raft
