import Promtact.Protocol.Client
import Promtact.Raft.Cluster
import Promtact.StateMachine

/-!
# The server

A server (`server.go`) owns a node and a state machine. Its loop takes one thing at a
time: a message of a peer, a request of a client, or a tick. After each it sends what
the node has queued, applies what the node has committed, and answers the reads whose
barrier is confirmed. A storage error ends the loop before anything is sent.

Mutations that were proposed wait in `pending` under their client and request IDs until
the entry is applied; a repeated request becomes one more waiter. A read waits in `reads`.

`openServer` rebuilds a server from its data directory: the node from the hard state, the
snapshot and the log behind it, and the machine by restoring the snapshot and applying
what is committed behind it.

A reply channel is the number of the request it belongs to. What goes out of the loop,
and the calls of the node's methods, are noted in the order in which they happen.
-/

namespace Promtact

open Function (update)
open Protocol (ClientRequest ClientResponse Status)
open Raft (Node Message Word Entry CommandOp Op Panic StableStore Recovery)
open StateMachine (Machine ApplyError)

namespace Server

/-- The configured peers are the keys of the map of addresses, in the order in which a
loop over the map meets them. -/
structure Config where
  id : Nat
  peers : List Nat
  electionTicks : Nat := 0
  snapshotEntries : Nat := 0
  deriving DecidableEq

def Config.timeout (config : Config) : Nat :=
  if config.electionTicks = 0 then 10 + config.id else config.electionTicks

def Config.peerIDs (config : Config) : List Nat := config.peers.filter (· ≠ config.id)

structure Request where
  value : ClientRequest
  reply : Nat
  deriving DecidableEq

structure PendingKey where
  client : Word
  request : Word
  deriving DecidableEq

structure PendingRead where
  context : Word
  request : Request
  deriving DecidableEq

/-- What leaves the loop. -/
inductive Output
  | sent (message : Message)
  | replied (reply : Nat) (response : ClientResponse)
  | applied (entry : Entry)
  deriving DecidableEq

end Server

structure Server (σ : Type) where
  config : Server.Config
  node : Node σ
  machine : Machine := .new
  /-- The waiters of the proposals that are not applied yet. -/
  pending : Server.PendingKey → Option (List Nat) := fun _ => none
  reads : List Server.PendingRead := []
  output : List Server.Output := []
  /-- The calls of the node's methods. -/
  calls : List Op := []

abbrev ServerM (σ : Type) := EStateM Panic (Server σ)

namespace Server

variable {σ : Type}

def emit (output : Output) : ServerM σ Unit :=
  modify fun s => { s with output := s.output ++ [output] }

section Loop

variable [StableStore σ]

/-- A call of a method of the node. A panic of the node is one of the server. -/
def call (op : Op) : ServerM σ Raft.Output := fun s =>
  match op.exec s.node with
  | .ok out node => .ok out { s with node := node, calls := s.calls ++ [op] }
  | .error e node => .error e { s with node := node, calls := s.calls ++ [op] }

/-! ## Requests -/

def response (s : Server σ) (status : Status) (request : ClientRequest) (value : Word) :
    ClientResponse where
  status := status
  leader := BitVec.ofNat 32 s.node.leader
  requestID := request.requestID
  value := value
  commit := BitVec.ofNat 64 s.node.commit

def answer (incoming : Request) (status : Status) (value : Word) : ServerM σ Unit := do
  emit (.replied incoming.reply ((← get).response status incoming.value value))

def readContextOf (request : ClientRequest) : Word :=
  (request.clientID <<< 32) ^^^ request.requestID

def handleGet (incoming : Request) : ServerM σ Unit := do
  if (← get).reads ≠ [] then
    answer incoming .busy 0
  else
    let contextID := readContextOf incoming.value
    if contextID = 0 then
      answer incoming .busy 0
    else if (← call (.startReadIndex contextID)) ≠ .accepted true then
      answer incoming .busy 0
    else
      modify fun s => { s with reads := s.reads ++ [⟨contextID, incoming⟩] }

def commandOf (request : ClientRequest) : Option CommandOp :=
  match request.operation with
  | .put => some .put
  | .delete => some .delete
  | _ => none

def keyOf (request : ClientRequest) : PendingKey := ⟨request.clientID, request.requestID⟩

/-- A mutation that is neither applied nor waiting. -/
def proposeMutation (incoming : Request) : ServerM σ Unit := do
  let req := incoming.value
  match commandOf req with
  | none => answer incoming .invalid 0
  | some operation =>
    if (← call (.proposeRequest operation req.clientID req.requestID req.key req.value)) ≠
        .accepted true then
      answer incoming .busy 0
    else
      modify fun s => { s with pending := update s.pending (keyOf req) (some [incoming.reply]) }

def handleMutation (incoming : Request) : ServerM σ Unit := do
  let req := incoming.value
  if req.clientID = 0 || req.requestID = 0 then
    answer incoming .invalid 0
  else
    match (← get).machine.cached req.clientID req.requestID with
    | .error _ => answer incoming .invalid 0
    | .ok (some result) => answer incoming .ok result.value
    | .ok none =>
      match (← get).pending (keyOf req) with
      | some waiters =>
        modify fun s => { s with
          pending := update s.pending (keyOf req) (some (waiters ++ [incoming.reply])) }
      | none => proposeMutation incoming

def handleRequest (incoming : Request) : ServerM σ Unit := do
  if incoming.value.operation = .status then
    answer incoming .ok 0
  else if (← get).node.state ≠ .leader then
    answer incoming .notLeader 0
  else if incoming.value.operation = .get then
    handleGet incoming
  else
    handleMutation incoming

/-! ## Applying -/

def valueOf : Except ApplyError StateMachine.Result → Word
  | .ok result => result.value
  | .error _ => 0

/-- The live server goes on after an error of the machine: it only shows in the answer. -/
def applyEntry (entry : Entry) : ServerM σ Unit := do
  let (result, machine) := (← get).machine.apply entry
  modify fun s => { s with machine := machine }
  emit (.applied entry)
  let s ← get
  match s.pending ⟨entry.clientID, entry.requestID⟩ with
  | none => return
  | some waiters =>
    let response : ClientResponse := {
      status := if result.isOk then .ok else .invalid
      leader := BitVec.ofNat 32 s.node.leader
      requestID := entry.requestID
      value := valueOf result
      commit := BitVec.ofNat 64 s.node.commit }
    waiters.forM fun waiter => emit (.replied waiter response)
    modify fun s => { s with
      pending := update s.pending ⟨entry.clientID, entry.requestID⟩ none }

def entriesOf : Raft.Output → List Entry
  | .entries entries => entries
  | _ => []

def messagesOf : Raft.Output → List Message
  | .messages messages => messages
  | _ => []

/-- The log is compacted once enough was applied; whether that worked is not looked at. -/
def compactApplied : ServerM σ Unit := do
  let s ← get
  if s.config.snapshotEntries ≠ 0 ∧
      s.config.snapshotEntries ≤ s.node.applied - s.node.baseIndex then
    let _ ← call (.compact s.node.applied s.machine.snapshot)

def apply : ServerM σ Unit := do
  (entriesOf (← call .applyEntries)).forM applyEntry
  compactApplied

/-! ## Reads -/

/-- A read that is not confirmed, or ahead of the machine, stays. -/
def completeRead (read : PendingRead) : ServerM σ Bool := do
  let s ← get
  match s.node.readIndexOf read.context with
  | none => return true
  | some index =>
    if s.node.applied < index then
      return true
    else
      match s.machine.get read.request.value.key with
      | some value => answer read.request .ok value
      | none => answer read.request .notFound 0
      return false

def completeReads : ServerM σ Unit := do
  let remaining ← (← get).reads.filterM completeRead
  modify fun s => { s with reads := remaining }

/-! ## The loop -/

inductive Input
  | message (message : Message)
  | request (incoming : Request)
  | tick
  deriving DecidableEq

def takeInput : Input → ServerM σ Unit
  | .message message => do let _ ← call (.step message)
  | .request incoming => handleRequest incoming
  | .tick => do let _ ← call .tick

def sendAll : ServerM σ Unit := do
  (messagesOf (← call .drain)).forM fun message => emit (.sent message)

/-- One round of the loop; `false` when a storage error ends it. -/
def loopOnce (input : Input) : ServerM σ Bool := do
  takeInput input
  if (← get).node.storageErr.isSome then
    return false
  else
    sendAll
    apply
    completeReads
    return true

end Loop

/-! ## Opening -/

inductive OpenError
  | badSnapshot
  | apply (error : ApplyError)
  deriving DecidableEq

/-- The replay of the log ends at the first error of the machine. -/
def replayEntries : List Entry → ServerM σ (Option OpenError)
  | [] => return none
  | entry :: entries => do
    let (result, machine) := (← get).machine.apply entry
    modify fun s => { s with machine := machine }
    emit (.applied entry)
    match result with
    | .error e => return some (.apply e)
    | .ok _ => replayEntries entries

/-- The machine is rebuilt from the snapshot and the committed log behind it. -/
def replay [StableStore σ] (recovery : Recovery) : ServerM σ (Option OpenError) := do
  if recovery.snapshot.lastIndex ≠ 0 ∧ recovery.snapshot.state ≠ [] then
    match Machine.restore recovery.snapshot.state with
    | none => return some .badSnapshot
    | some machine =>
      modify fun s => { s with machine := machine }
      replayEntries (entriesOf (← call .applyEntries))
  else
    replayEntries (entriesOf (← call .applyEntries))

/-- The server over a store that was opened, and the error that keeps it from starting.
A configuration without an ID is refused before the store is opened. -/
def openServer [StableStore σ] (config : Config) (store : σ) (recovery : Recovery) :
    Except Panic (Server σ × Option OpenError) := do
  let node ← Raft.recover config.id config.peerIDs config.timeout store recovery
  match replay recovery { config := config, node := node } with
  | .ok err s => return (s, err)
  | .error e _ => throw e

end Server

end Promtact
