import Promtact.Raft.Types

/-!
# Raft: the node

The state machine of `node.go`, function by function and under the names of the
source. A method that changes the node is a program in `NodeM`; a method that
only reads it is a function of the node that may panic (`Except Panic`). A panic
keeps the state it happened in, because the store outlives the process.

Go maps are functions with default zero, and a loop over a range of indexes is a
loop over the list of those indexes.
-/

namespace Promtact.Raft

open Function (update)

def outboundCapacity : Nat := 4096

structure Node (σ : Type) where
  id : Nat
  peers : List Nat
  state : State := .follower
  term : Nat := 0
  votedFor : Nat := 0
  leader : Nat := 0
  log : List Entry := [{}]
  baseIndex : Nat := 0
  baseTerm : Nat := 0
  commit : Nat := 0
  applied : Nat := 0
  timeout : Nat
  elapsed : Nat := 0
  voteMask : Word := 0
  preVoteMask : Word := 0
  preVoteTerm : Nat := 0
  next : Nat → Nat := fun _ => 0
  matchIndex : Nat → Nat := fun _ => 0
  outbound : List Message := []
  store : σ
  faulted : Bool := false
  storageErr : Option StoreError := none
  readContext : Word := 0
  readAckMask : Word := 0
  readIndex : Nat := 0
  readReady : Bool := false
  snapshot : Snapshot := {}
  votersOld : Word
  votersNew : Word := 0
  pendingConfig : Nat := 0

abbrev NodeM (σ : Type) := EStateM Panic (Node σ)

variable {σ α : Type}

/-- A method that only reads the node. -/
def ask (f : Node σ → Except Panic α) : NodeM σ α := fun n =>
  match f n with
  | .ok a => .ok a n
  | .error e => .error e n

/-! ## Masks -/

def nodeBit (id : Nat) : Except Panic Word :=
  if id = 0 ∨ id > 64 then throw .nodeIDOutOfRange else return 1#64 <<< (id - 1)

/-- The loop of `bitsSet`; the first argument bounds its rounds. -/
def bitsSetLoop : Nat → Word → Nat
  | 0, _ => 0
  | rounds + 1, mask => if mask = 0 then 0 else bitsSetLoop rounds (mask &&& (mask - 1)) + 1

def bitsSet (mask : Word) : Nat := bitsSetLoop 64 mask

def majorityMask (voters acked : Word) : Bool :=
  voters ≠ 0 && bitsSet voters / 2 + 1 ≤ bitsSet (voters &&& acked)

/-- `voterMask` rejects an empty list and a repeated ID. -/
def voterMaskLoop : List Nat → Word → Except Panic (Option Word)
  | [], mask => return some mask
  | id :: ids, mask => do
    let bit ← nodeBit id
    if mask &&& bit ≠ 0 then return none
    voterMaskLoop ids (mask ||| bit)

def voterMask (ids : List Nat) : Except Panic (Option Word) :=
  if ids = [] then return none else voterMaskLoop ids 0

/-! ## Reading the log -/

namespace Node

def lastIndex (n : Node σ) : Nat := n.baseIndex + n.log.length - 1

def offset (n : Node σ) (index : Nat) : Option Nat :=
  if index < n.baseIndex ∨ index > n.lastIndex then none else some (index - n.baseIndex)

/-- The entry at an absolute index, the compacted base included. -/
def entryAt? (n : Node σ) (index : Nat) : Option Entry := do
  let offset ← n.offset index
  n.log[offset]?

def termAt (n : Node σ) (index : Nat) : Option Nat := (n.entryAt? index).map (·.term)

def termAtMust (n : Node σ) (index : Nat) : Except Panic Nat :=
  match n.termAt index with
  | some term => return term
  | none => throw .logIndexOutOfRange

def entryAt (n : Node σ) (index : Nat) : Except Panic Entry :=
  match n.entryAt? index with
  | some entry => return entry
  | none => throw .logIndexOutOfRange

/-- The indexes `first, …, last`. -/
def indexes (first last : Nat) : List Nat := List.range' first (last + 1 - first)

/-! ## Voters -/

/-- A joint entry takes effect as soon as it is in the log. -/
def overrideVoters (n : Node σ) (voters : Word × Word) (index : Nat) :
    Except Panic (Word × Word) := do
  let entry ← n.entryAt index
  return if entry.kind = .jointConfig then (entry.oldVoters, entry.newVoters) else voters

/-- The loop starts at `Commit+1`, which does not wrap here: indexes are natural numbers,
so this is the source as long as the commit index is below 2^64-1. -/
def effectiveVoters (n : Node σ) : Except Panic (Word × Word) :=
  (indexes (max (n.commit + 1) (n.baseIndex + 1)) n.lastIndex).foldlM n.overrideVoters
    (n.votersOld, n.votersNew)

def jointMajority (voters : Word × Word) (mask : Word) : Bool :=
  majorityMask voters.1 mask && (voters.2 = 0 || majorityMask voters.2 mask)

/-- A final entry is committed by the joint configuration before it. -/
def canCommitIndex (n : Node σ) (index : Nat) (acked : Word) : Except Panic Bool := do
  let voters ← (indexes (n.commit + 1) index).foldlM n.overrideVoters (n.votersOld, n.votersNew)
  return jointMajority voters acked

def quorumMask (n : Node σ) (mask : Word) : Except Panic Bool := do
  let voters ← n.effectiveVoters
  return jointMajority voters mask

def isVoter (n : Node σ) (id : Nat) : Except Panic Bool := do
  let voters ← n.effectiveVoters
  let bit ← nodeBit id
  return (voters.1 ||| voters.2) &&& bit ≠ 0

def validNewEntry (n : Node σ) (entry : Entry) : Bool :=
  match entry.kind with
  | .normal =>
    entry.oldVoters = 0 && entry.newVoters = 0 &&
      (entry.operation = .legacy ||
        ((entry.operation = .put || entry.operation = .delete) &&
          entry.clientID ≠ 0 && entry.requestID ≠ 0))
  | .noop =>
    entry.command = 0 && entry.oldVoters = 0 && entry.newVoters = 0 && entry.operation = .legacy
  | .jointConfig =>
    n.pendingConfig = 0 && n.votersNew = 0 &&
      entry.oldVoters = n.votersOld && entry.oldVoters ≠ 0 && entry.newVoters ≠ 0
  | .finalConfig =>
    n.pendingConfig = 0 && n.votersNew ≠ 0 && entry.oldVoters = n.votersNew && entry.newVoters = 0
  | .other _ => false

/-- One round of `ensurePeers`. -/
def ensurePeer (mask : Word) (n : Node σ) (id : Nat) : Node σ :=
  if id = n.id ∨ mask &&& (1#64 <<< (id - 1)) = 0 ∨ id ∈ n.peers then n
  else { n with
    peers := n.peers ++ [id]
    next := update n.next id (n.lastIndex + 1)
    matchIndex := update n.matchIndex id 0 }

def ensurePeers (mask : Word) (n : Node σ) : Node σ :=
  (indexes 1 64).foldl (ensurePeer mask) n

end Node

open Node (indexes)

/-! ## Storage -/

def failStorage : NodeM σ Unit :=
  modify fun n => { n with
    storageErr := some (n.storageErr.getD errStorage)
    faulted := true
    state := .follower
    leader := 0
    outbound := [] }

def failStorageWith (err : StoreError) : NodeM σ Unit := do
  modify fun n => { n with storageErr := some err }
  failStorage

/-- A store call; on an error the node stops for good. -/
def tryStore (call : σ → Option StoreError × σ) : NodeM σ Bool := do
  let n ← get
  set { n with store := (call n.store).2 }
  match (call n.store).1 with
  | none => return true
  | some err =>
    failStorageWith err
    return false

variable [StableStore σ]

def persistHardState (hard : HardState) : NodeM σ Bool :=
  tryStore (StableStore.saveHardState hard)

/-! ## Sending -/

def send (m : Message) : NodeM σ Unit := do
  let n ← get
  if n.outbound.length = outboundCapacity then throw .outboundCapacityExceeded
  else set { n with outbound := n.outbound ++ [m] }

def appendToContext (p : Nat) (context : Word) : NodeM σ Unit := do
  let n ← get
  if n.next p ≤ n.baseIndex then
    return ← send {
      type := .installSnapshot, fromID := n.id, toID := p, term := n.term
      snapshotIndex := n.snapshot.lastIndex, snapshotTerm := n.snapshot.lastTerm
      snapshot := n.snapshot.state
      snapshotOld := n.snapshot.oldVoters, snapshotNew := n.snapshot.newVoters }
  modify fun n =>
    if n.next p > n.lastIndex + 1 then { n with next := update n.next p (n.lastIndex + 1) } else n
  let n ← get
  let next := if n.next p = 0 then 1 else n.next p
  let prev := next - 1
  let prevTerm ← ask (·.termAtMust prev)
  let m : Message := {
    type := .append, fromID := n.id, toID := p, term := n.term
    logIndex := prev, logTerm := prevTerm, commit := n.commit, context := context }
  if next < n.lastIndex + 1 then
    let entry ← ask (·.entryAt next)
    send { m with entry := entry, hasEntry := true }
  else
    send m

def appendTo (p : Nat) : NodeM σ Unit := appendToContext p 0

def broadcastAppend : NodeM σ Unit := do
  let n ← get
  n.peers.forM fun p => do
    if ← ask (·.isVoter p) then appendTo p

/-! ## Configurations -/

/-- A committed entry changes the voters. A node that a final entry removes
steps down. -/
def installConfiguration (entry : Entry) : NodeM σ Unit := do
  match entry.kind with
  | .jointConfig =>
    modify fun n => { n with votersOld := entry.oldVoters, votersNew := entry.newVoters }
    modify (Node.ensurePeers (entry.oldVoters ||| entry.newVoters))
  | .finalConfig =>
    modify fun n => { n with votersOld := entry.oldVoters, votersNew := 0 }
    if !(← ask fun n => n.isVoter n.id) then
      modify fun n => { n with state := .follower, leader := 0, readReady := false }
  | _ => return

def applyCommittedConfiguration (index : Nat) : NodeM σ Unit := do
  let entry ← ask (·.entryAt index)
  installConfiguration entry
  modify fun n => if index = n.pendingConfig then { n with pendingConfig := 0 } else n

def applyCommittedConfigurations (first last : Nat) : NodeM σ Unit := do
  let n ← get
  (indexes (if first ≤ n.baseIndex then n.baseIndex + 1 else first) last).forM
    applyCommittedConfiguration

/-- The commit index moves once it is durable; false when the store failed. -/
def commitTo (index : Nat) : NodeM σ Bool := do
  let n ← get
  if !(← persistHardState { term := n.term, votedFor := n.votedFor, commit := index }) then
    return false
  modify fun n => { n with commit := index }
  applyCommittedConfigurations (n.commit + 1) index
  return true

def Entry.isConfig (entry : Entry) : Bool :=
  entry.kind = .jointConfig || entry.kind = .finalConfig

def rebuildPendingConfig : NodeM σ Unit := do
  modify fun n => { n with pendingConfig := 0 }
  let n ← get
  (indexes (max (n.commit + 1) (n.baseIndex + 1)) n.lastIndex).forM fun index => do
    let entry ← ask (·.entryAt index)
    if entry.isConfig then
      modify fun n => { n with pendingConfig := index }
      modify (Node.ensurePeers (entry.oldVoters ||| entry.newVoters))

/-! ## Becoming leader -/

/-- A leader that is a quorum by itself commits its whole log; false when the
store failed, and then the commit index is back where it was. -/
def commitOwn : NodeM σ Bool := do
  let n ← get
  modify fun n => { n with commit := n.lastIndex }
  if !(← persistHardState { term := n.term, votedFor := n.votedFor, commit := n.lastIndex }) then
    modify fun m => { m with commit := n.commit }
    return false
  applyCommittedConfigurations (n.commit + 1) n.lastIndex
  return true

def appendLocal (entry : Entry) : NodeM σ Bool := do
  let n ← get
  if !(← tryStore (StableStore.append (n.lastIndex + 1) entry)) then return false
  modify fun n => { n with log := n.log ++ [entry] }
  let own ← ask fun n => nodeBit n.id
  if !(← ask (·.quorumMask own)) then return true
  commitOwn

/-- A new leader knows nothing about its followers yet. -/
def Node.resetProgress (next : Nat) (n : Node σ) (p : Nat) : Node σ :=
  { n with next := update n.next p next, matchIndex := update n.matchIndex p 0 }

def becomeLeader : NodeM σ Unit := do
  modify fun n => { n with state := .leader, leader := n.id, elapsed := 0 }
  let n ← get
  if !(← appendLocal { term := n.term, kind := .noop }) then return
  modify fun n => n.peers.foldl (Node.resetProgress (n.lastIndex + 1)) n
  broadcastAppend

def startElection : NodeM σ Unit := do
  let n ← get
  if !(← persistHardState { term := n.term + 1, votedFor := n.id, commit := n.commit }) then return
  let own ← ask fun n => nodeBit n.id
  modify fun n => { n with
    state := .candidate, term := n.term + 1, votedFor := n.id, elapsed := 0
    voteMask := own, preVoteMask := 0 }
  let n ← get
  n.peers.forM fun p => do
    let lastTerm ← ask (·.termAtMust n.lastIndex)
    send {
      type := .requestVote, fromID := n.id, toID := p, term := n.term
      logIndex := n.lastIndex, logTerm := lastTerm }
  if ← ask (fun n => n.quorumMask n.voteMask) then becomeLeader

def startPreVote : NodeM σ Unit := do
  let own ← ask fun n => nodeBit n.id
  modify fun n => { n with
    elapsed := 0, preVoteTerm := n.term + 1, leader := 0, preVoteMask := own }
  let n ← get
  n.peers.forM fun p => do
    let lastTerm ← ask (·.termAtMust n.lastIndex)
    send {
      type := .preVote, fromID := n.id, toID := p, term := n.preVoteTerm
      logIndex := n.lastIndex, logTerm := lastTerm }
  if ← ask (fun n => n.quorumMask n.preVoteMask) then startElection

def tick : NodeM σ Unit := do
  let n ← get
  if n.faulted then return
  modify fun n => { n with elapsed := n.elapsed + 1 }
  let n ← get
  if n.state = .leader then
    if n.elapsed ≥ 3 then
      modify fun n => { n with elapsed := 0 }
      broadcastAppend
  else if n.elapsed ≥ n.timeout then
    startPreVote

/-! ## Messages -/

/-- The candidate's log is at least as up to date as this node's. -/
def upToDate (m : Message) : NodeM σ Bool := do
  let n ← get
  let lastTerm ← ask (·.termAtMust n.lastIndex)
  return m.logTerm > lastTerm || (m.logTerm = lastTerm && m.logIndex ≥ n.lastIndex)

def onPreVote (m : Message) : NodeM σ Unit := do
  let n ← get
  let upToDate ← upToDate m
  let leaderActive : Bool := n.leader ≠ 0 && n.elapsed < n.timeout
  let grant := (← ask (·.isVoter m.fromID)) && m.term ≥ n.term + 1 && upToDate && !leaderActive
  send {
    type := .preVoteResponse, fromID := n.id, toID := m.fromID, term := m.term, reject := !grant }

def onVote (m : Message) : NodeM σ Unit := do
  let n ← get
  let upToDate ← upToDate m
  let grant := (← ask (·.isVoter m.fromID)) && m.term = n.term &&
    (n.votedFor = 0 || n.votedFor = m.fromID) && upToDate
  if !grant then
    return ← send {
      type := .requestVoteResponse, fromID := n.id, toID := m.fromID, term := n.term
      reject := true }
  if !(← persistHardState { term := n.term, votedFor := m.fromID, commit := n.commit }) then return
  modify fun n => { n with votedFor := m.fromID, elapsed := 0 }
  send { type := .requestVoteResponse, fromID := n.id, toID := m.fromID, term := n.term }

/-- The conflicting suffix goes before an entry is stored. -/
def truncateConflict (index term : Nat) : NodeM σ Unit := do
  let n ← get
  match n.termAt index with
  | some present =>
    if present ≠ term then
      modify fun n => { n with log := n.log.take (index - n.baseIndex) }
      rebuildPendingConfig
  | none => return

/-- The entry of an accepted append; false when the store failed. -/
def storeEntry (m : Message) : NodeM σ Bool := do
  if !m.hasEntry then return true
  truncateConflict (m.logIndex + 1) m.entry.term
  let n ← get
  if m.logIndex + 1 ≠ n.lastIndex + 1 then return true
  if !(← tryStore (StableStore.append (m.logIndex + 1) m.entry)) then return false
  modify fun n => { n with log := n.log ++ [m.entry] }
  if m.entry.isConfig then
    modify fun n => { n with pendingConfig := m.logIndex + 1 }
    modify (Node.ensurePeers (m.entry.oldVoters ||| m.entry.newVoters))
  return true

/-- The last index an accepted append confirms. -/
def Message.matched (m : Message) : Nat := if m.hasEntry then m.logIndex + 1 else m.logIndex

/-- The commit index of an accepted append; false when the store failed. -/
def followCommit (m : Message) : NodeM σ Bool := do
  let n ← get
  if !(m.commit > n.commit &&
      (m.logIndex > n.commit || (m.hasEntry && m.logIndex + 1 > n.commit))) then return true
  commitTo (min m.commit m.matched)

def Node.rejectsAppend (n : Node σ) (m : Message) : Bool :=
  m.term < n.term || n.termAt m.logIndex ≠ some m.logTerm ||
    (m.hasEntry && m.logIndex + 1 = n.lastIndex + 1 && !n.validNewEntry m.entry)

def onAppend (m : Message) : NodeM σ Unit := do
  let n ← get
  if n.rejectsAppend m then
    return ← send {
      type := .appendResponse, fromID := n.id, toID := m.fromID, term := n.term
      reject := true, matchIndex := n.lastIndex, context := m.context }
  modify fun n => { n with state := .follower, leader := m.fromID, elapsed := 0 }
  if !(← storeEntry m) then return
  if !(← followCommit m) then return
  send {
    type := .appendResponse, fromID := n.id, toID := m.fromID, term := n.term
    matchIndex := m.matched, context := m.context }

/-- The largest index above the commit index that the acknowledgements commit,
searched downwards from `index`. -/
def Node.committable (n : Node σ) : Nat → Except Panic (Option Nat)
  | 0 => return none
  | index + 1 => do
    if index + 1 ≤ n.commit then return none
    if (← n.termAtMust (index + 1)) ≠ n.term then return ← n.committable index
    let own ← nodeBit n.id
    let acked ← n.peers.foldlM (fun acked p =>
      if n.matchIndex p ≥ index + 1 then return acked ||| (← nodeBit p) else return acked) own
    if ← n.canCommitIndex (index + 1) acked then return some (index + 1)
    n.committable index

/-- The commit loop of `onAppendResponse`; false when the store failed. -/
def advanceCommit : NodeM σ Bool := do
  let n ← get
  match ← ask (·.committable n.lastIndex) with
  | none => return true
  | some index =>
    if !(← commitTo index) then return false
    if (← get).state = .leader then broadcastAppend
    return true

/-- An acknowledgement may confirm the active read barrier. -/
def confirmRead (m : Message) : NodeM σ Unit := do
  let n ← get
  if n.state = .leader && m.term = n.term && !m.reject && m.context ≠ 0 &&
      m.context = n.readContext then
    if ← ask (·.isVoter m.fromID) then
      let bit ← ask fun _ => nodeBit m.fromID
      modify fun n => { n with readAckMask := n.readAckMask ||| bit }
      if ← ask (fun n => n.quorumMask n.readAckMask) then
        modify fun n => { n with readIndex := n.commit, readReady := true }

def onAppendResponse (m : Message) : NodeM σ Unit := do
  confirmRead m
  let n ← get
  if n.state ≠ .leader || m.term ≠ n.term || m.matchIndex ≥ n.lastIndex + 1 then return
  if m.reject then
    modify fun n =>
      if n.next m.fromID > 1 then
        { n with next := update n.next m.fromID (n.next m.fromID - 1) }
      else n
    return ← appendTo m.fromID
  modify fun n => { n with
    matchIndex := update n.matchIndex m.fromID m.matchIndex
    next := update n.next m.fromID (m.matchIndex + 1) }
  if !(← advanceCommit) then return
  let n ← get
  if n.state ≠ .leader then return
  if n.next m.fromID < n.lastIndex + 1 then appendTo m.fromID

/-! ## Snapshots -/

/-- A durable snapshot is published before the log it covers is discarded;
false when the store failed. -/
def saveAndCompact (snapshot : Snapshot) : NodeM σ Bool := do
  match StableStore.snapshots (σ := σ) with
  | none =>
    failStorage
    return false
  | some store =>
    if !(← tryStore (store.saveSnapshot snapshot)) then return false
    tryStore (store.compactLog snapshot.lastIndex)

def compact (index : Nat) (state : List UInt8) : NodeM σ Bool := do
  let n ← get
  if index ≤ n.baseIndex || index > n.applied then return false
  match n.termAt index with
  | none => return false
  | some term =>
    let snapshot : Snapshot := {
      lastIndex := index, lastTerm := term, state := state
      oldVoters := n.votersOld, newVoters := n.votersNew }
    if !(← saveAndCompact snapshot) then return false
    modify fun n => { n with
      log := n.log.drop (index - n.baseIndex)
      baseIndex := index, baseTerm := term, snapshot := snapshot }
    return true

def Node.rejectsSnapshot (n : Node σ) (m : Message) : Bool :=
  m.term < n.term || m.snapshotIndex < n.baseIndex || m.snapshotOld = 0 ||
    (m.snapshotIndex = n.baseIndex && m.snapshotTerm ≠ n.baseTerm)

def Message.asSnapshot (m : Message) : Snapshot := {
  lastIndex := m.snapshotIndex, lastTerm := m.snapshotTerm, state := m.snapshot
  oldVoters := m.snapshotOld, newVoters := m.snapshotNew }

/-- The suffix behind a snapshot stays when the log holds the snapshot's last
entry. -/
def Node.logBehind (n : Node σ) (snapshot : Snapshot) : List Entry :=
  if n.termAt snapshot.lastIndex = some snapshot.lastTerm then
    n.log.drop (snapshot.lastIndex - n.baseIndex)
  else [{ term := snapshot.lastTerm }]

/-- A snapshot beyond the base is stored and replaces the covered log; false
when the store failed. -/
def installSnapshot (m : Message) : NodeM σ Bool := do
  let n ← get
  if m.snapshotIndex ≤ n.baseIndex then return true
  if !(← saveAndCompact m.asSnapshot) then return false
  modify fun n => { n with
    log := n.logBehind m.asSnapshot
    baseIndex := m.snapshotIndex, baseTerm := m.snapshotTerm, snapshot := m.asSnapshot
    votersOld := m.snapshotOld, votersNew := m.snapshotNew
    commit := max n.commit m.snapshotIndex
    applied := max n.applied m.snapshotIndex }
  return true

def onInstallSnapshot (m : Message) : NodeM σ Unit := do
  let n ← get
  if n.rejectsSnapshot m then
    return ← send {
      type := .installSnapshotResponse, fromID := n.id, toID := m.fromID, term := n.term
      reject := true, matchIndex := n.baseIndex }
  if !(← installSnapshot m) then return
  modify fun n => { n with state := .follower, leader := m.fromID, elapsed := 0 }
  let n ← get
  send {
    type := .installSnapshotResponse, fromID := n.id, toID := m.fromID, term := n.term
    matchIndex := n.baseIndex }

/-- As in all of the model the next index does not wrap, so this is the source for a
`Match` below 2^64-1. -/
def onInstallSnapshotResponse (m : Message) : NodeM σ Unit := do
  let n ← get
  if n.state ≠ .leader || m.term ≠ n.term || m.reject then return
  if !(← ask (·.isVoter m.fromID)) then return
  modify fun n =>
    if m.matchIndex > n.matchIndex m.fromID then
      { n with
        matchIndex := update n.matchIndex m.fromID m.matchIndex
        next := update n.next m.fromID (m.matchIndex + 1) }
    else n
  let n ← get
  if n.next m.fromID ≤ n.lastIndex then appendTo m.fromID

/-! ## Step -/

/-- A message of a later term is adopted before it is handled; false when the
store failed. -/
def adoptTerm (m : Message) : NodeM σ Bool := do
  let n ← get
  if m.type = .preVote || m.type = .preVoteResponse || m.term ≤ n.term then return true
  if !(← persistHardState { term := m.term, commit := n.commit }) then return false
  modify fun n => { n with
    state := .follower, term := m.term, votedFor := 0, leader := 0, readReady := false }
  return true

def onPreVoteResponse (m : Message) : NodeM σ Unit := do
  let n ← get
  if n.state = .leader then return
  if !(← ask (·.isVoter m.fromID)) then return
  if m.term ≠ n.term + 1 || m.term ≠ n.preVoteTerm || m.reject then return
  let bit ← ask fun _ => nodeBit m.fromID
  modify fun n => { n with preVoteMask := n.preVoteMask ||| bit }
  if ← ask (fun n => n.quorumMask n.preVoteMask) then startElection

def onVoteResponse (m : Message) : NodeM σ Unit := do
  let n ← get
  if n.state ≠ .candidate then return
  if !(← ask (·.isVoter m.fromID)) then return
  if m.term ≠ n.term || m.reject then return
  let bit ← ask fun _ => nodeBit m.fromID
  modify fun n => { n with voteMask := n.voteMask ||| bit }
  if ← ask (fun n => n.quorumMask n.voteMask) then becomeLeader

def onTimeoutNow (m : Message) : NodeM σ Unit := do
  let n ← get
  if n.state = .follower && m.term = n.term && m.fromID = n.leader then startElection

def step (m : Message) : NodeM σ Unit := do
  let n ← get
  if n.faulted then return
  if !(← adoptTerm m) then return
  match m.type with
  | .preVote => onPreVote m
  | .preVoteResponse => onPreVoteResponse m
  | .requestVote => onVote m
  | .requestVoteResponse => onVoteResponse m
  | .append => onAppend m
  | .appendResponse => onAppendResponse m
  | .installSnapshot => onInstallSnapshot m
  | .installSnapshotResponse => onInstallSnapshotResponse m
  | .timeoutNow => onTimeoutNow m
  | .other _ => return

/-! ## Proposals -/

def propose (command : Word) : NodeM σ Bool := do
  let n ← get
  if n.state ≠ .leader || n.faulted then return false
  if !(← appendLocal { term := n.term, command := command }) then return false
  broadcastAppend
  return true

def proposeRequest (operation : CommandOp) (clientID requestID key value : Word) :
    NodeM σ Bool := do
  let n ← get
  if n.state ≠ .leader || n.faulted || clientID = 0 || requestID = 0 ||
      (operation ≠ .put && operation ≠ .delete) then return false
  if !(← appendLocal {
      term := n.term, operation := operation, clientID := clientID, requestID := requestID
      key := key, value := value }) then return false
  broadcastAppend
  return true

/-- Appends the joint configuration of the current and the new voters. -/
def proposeJoint (newVoters : List Nat) : NodeM σ Bool := do
  match ← ask fun _ => voterMask newVoters with
  | none => return false
  | some newMask =>
    let n ← get
    if n.state ≠ .leader || n.faulted || n.votersNew ≠ 0 || n.pendingConfig ≠ 0 then return false
    modify (Node.ensurePeers newMask)
    if !(← appendLocal {
        term := n.term, kind := .jointConfig, oldVoters := n.votersOld, newVoters := newMask }) then
      return false
    modify fun n => { n with pendingConfig := n.lastIndex }
    broadcastAppend
    return true

/-- Appends the new voters alone after the joint entry has committed. -/
def proposeFinal : NodeM σ Bool := do
  let n ← get
  if n.state ≠ .leader || n.faulted || n.votersNew = 0 || n.pendingConfig ≠ 0 then return false
  if !(← appendLocal { term := n.term, kind := .finalConfig, oldVoters := n.votersNew }) then
    return false
  modify fun n => { n with pendingConfig := n.lastIndex }
  broadcastAppend
  return true

/-- Asks an up-to-date voter to start an election at once. -/
def transferLeadership (target : Nat) : NodeM σ Bool := do
  let n ← get
  if n.state ≠ .leader || target = n.id then return false
  if !(← ask (·.isVoter target)) then return false
  if n.matchIndex target < n.lastIndex then
    appendTo target
    return false
  send { type := .timeoutNow, fromID := n.id, toID := target, term := n.term }
  return true

/-! ## Read barriers -/

/-- The leader may serve a read barrier: it has committed in its own term, or it
is a quorum by itself. -/
def Node.mayRead (n : Node σ) (context : Word) : Except Panic Bool := do
  if n.state ≠ .leader || n.faulted || context = 0 || n.commit = 0 then return false
  if (← n.termAtMust n.commit) = n.term then return true
  n.quorumMask (← nodeBit n.id)

def startReadIndex (context : Word) : NodeM σ Bool := do
  if !(← ask (·.mayRead context)) then return false
  let own ← ask fun n => nodeBit n.id
  modify fun n => { n with readContext := context, readAckMask := own }
  let ready ← ask (fun n => n.quorumMask n.readAckMask)
  modify fun n => { n with
    readReady := ready, readIndex := if ready then n.commit else n.readIndex }
  let n ← get
  n.peers.forM fun p => appendToContext p context
  return true

/-- The commit index once the barrier with this context reached a quorum. -/
def Node.readIndexOf (n : Node σ) (context : Word) : Option Nat :=
  if n.state ≠ .leader || context ≠ n.readContext || !n.readReady then none else some n.readIndex

/-! ## Output -/

def drain : NodeM σ (List Message) :=
  modifyGet fun n => (n.outbound, { n with outbound := [] })

def applyNext (dst : List Entry) (index : Nat) : NodeM σ (List Entry) := do
  modify fun n => { n with applied := index }
  let entry ← ask (·.entryAt index)
  return if entry.kind = .normal then dst ++ [entry] else dst

def applyEntries : NodeM σ (List Entry) := do
  let n ← get
  (indexes (n.applied + 1) n.commit).foldlM applyNext []

end Promtact.Raft
