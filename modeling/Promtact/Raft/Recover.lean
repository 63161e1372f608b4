import Promtact.Raft.Node

/-!
# Raft: construction and recovery

A node is built empty (`newNodeWithStore`) or from what a store held
(`recover.go`). Recovery folds the configuration entries of the log and refuses a
log whose entries do not fit; a node that refuses its log is faulted from the
start.
-/

namespace Promtact.Raft

open Node (indexes)

variable {σ : Type}

/-- The voters of a new node: itself and its peers, all different. -/
def initialVoters (id : Nat) (peers : List Nat) : Except Panic Word := do
  let own ← nodeBit id
  peers.foldlM (fun seen peer => do
    let bit ← nodeBit peer
    if seen &&& bit ≠ 0 then throw .duplicateNodeID
    return seen ||| bit) own

def newNodeWithStore (id : Nat) (peers : List Nat) (electionTimeout : Nat) (store : σ) :
    Except Panic (Node σ) := do
  let voters ← initialVoters id peers
  return { id := id, peers := peers, timeout := electionTimeout, votersOld := voters, store := store }

variable [StableStore σ]

/-- The voters and the pending index while the log is folded. -/
structure Folded where
  old : Word
  new : Word
  pending : Nat

/-- One entry of the fold; `none` when the entry does not fit. -/
def foldEntry (commit index : Nat) (f : Folded) (entry : Entry) : Option Folded :=
  match entry.kind with
  | .normal => if entry.oldVoters ≠ 0 || entry.newVoters ≠ 0 then none else some f
  | .noop =>
    if entry.command ≠ 0 || entry.oldVoters ≠ 0 || entry.newVoters ≠ 0 ||
        entry.operation ≠ .legacy then none
    else some f
  | .jointConfig =>
    if f.pending ≠ 0 || f.new ≠ 0 || entry.oldVoters ≠ f.old || entry.oldVoters = 0 ||
        entry.newVoters = 0 then none
    else if index ≤ commit then some { f with old := entry.oldVoters, new := entry.newVoters }
    else some { f with pending := index }
  | .finalConfig =>
    if f.pending ≠ 0 || f.new = 0 || entry.oldVoters ≠ f.new || entry.newVoters ≠ 0 then none
    else if index ≤ commit then some { f with old := entry.oldVoters, new := 0 }
    else some { f with pending := index }
  | .other _ => none

def restoreLoop : List Nat → Folded → NodeM σ (Option Folded)
  | [], f => return some f
  | index :: rest, f => do
    let entry ← ask (·.entryAt index)
    let n ← get
    match foldEntry n.commit index f entry with
    | none => return none
    | some f =>
      modify (Node.ensurePeers (entry.oldVoters ||| entry.newVoters))
      restoreLoop rest f

/-- Folds the configuration entries above the base; false when one does not fit. -/
def restoreConfigurationState : NodeM σ Bool := do
  let n ← get
  match ← restoreLoop (indexes (n.baseIndex + 1) n.lastIndex) ⟨n.votersOld, n.votersNew, 0⟩ with
  | none => return false
  | some f =>
    modify fun n => { n with votersOld := f.old, votersNew := f.new, pendingConfig := f.pending }
    return true

/-- The common end of both recoveries. -/
def restore : NodeM σ Unit := do
  let n ← get
  if n.commit > n.lastIndex then return ← failStorage
  if !(← restoreConfigurationState) then failStorage

/-- The node a program ends with. -/
def built (prog : NodeM σ Unit) (n : Node σ) : Except Panic (Node σ) :=
  match prog n with
  | .ok _ n => .ok n
  | .error e _ => .error e

def newRecoveredNode (id : Nat) (peers : List Nat) (electionTimeout : Nat) (store : σ)
    (hard : HardState) (log : List Entry) : Except Panic (Node σ) := do
  let n ← newNodeWithStore id peers electionTimeout store
  built restore { n with
    term := hard.term, votedFor := hard.votedFor, commit := hard.commit
    log := if log = [] then n.log else log }

/-- Sets the compacted base before the suffix is replayed. -/
def restoreSnapshot (hard : HardState) (snapshot : Snapshot) (suffix : List Entry) :
    NodeM σ Unit := do
  modify fun n => { n with
    term := hard.term, votedFor := hard.votedFor
    baseIndex := snapshot.lastIndex, baseTerm := snapshot.lastTerm, snapshot := snapshot
    votersOld := snapshot.oldVoters, votersNew := snapshot.newVoters }
  if snapshot.oldVoters = 0 then return ← failStorage
  modify (Node.ensurePeers (snapshot.oldVoters ||| snapshot.newVoters))
  modify fun n => { n with
    log := { term := snapshot.lastTerm } :: suffix
    commit := max hard.commit snapshot.lastIndex
    applied := snapshot.lastIndex }
  restore

def newRecoveredNodeWithSnapshot (id : Nat) (peers : List Nat) (electionTimeout : Nat)
    (store : σ) (hard : HardState) (snapshot : Snapshot) (suffix : List Entry) :
    Except Panic (Node σ) := do
  let n ← newNodeWithStore id peers electionTimeout store
  built (restoreSnapshot hard snapshot suffix) n

end Promtact.Raft
