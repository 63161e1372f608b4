import Promtact.Dst.Engine
import Promtact.Sim.Machines

/-!
# The simulator and the Raft cluster of the engine

`sim.Simulator` drives the machines itself: its queue is a list in no order, and the
next message is found by a scan. `raftcluster.Cluster` is the same machines behind the
interface of `dst.Engine`. Both are driven by the same script of calls.

The deliveries are noted as the engine notes them; nothing reads them.
-/

namespace Promtact.Sim

open Promtact.Raft (Message MessageType NodeM)
open Promtact.Dst (drawLoss drawDelay traceBlock Delivery)

def electionTimeout (id : Nat) : Nat := 8 + id * 2

def messageCode : MessageType → UInt8
  | .preVote => 0
  | .preVoteResponse => 1
  | .requestVote => 2
  | .requestVoteResponse => 3
  | .append => 4
  | .appendResponse => 5
  | .timeoutNow => 6
  | .installSnapshot => 7
  | .installSnapshotResponse => 8
  | .other code => UInt8.ofNat (code + 9)

/-! ## The simulator -/

structure Scheduled where
  due : Nat
  seq : Nat
  msg : Message
  deriving DecidableEq

structure Simulator (ρ : Type) where
  now : Nat := 0
  count : Nat
  machines : Machines
  rng : ρ
  drop : Int
  delay : Nat
  seq : Nat := 0
  queue : List Scheduled := []
  trace : List UInt8 := List.replicate 32 0
  deliveries : List (Delivery Message) := []

namespace Simulator

variable {ρ : Type} [Dst.Rand ρ]

def new (count : Nat) (c : Dst.Config) (rng : ρ) : Option (Simulator ρ) :=
  if count < 1 then none
  else do
    return {
      count := count, machines := ← Machines.start (List.range' 1 count) electionTimeout
      rng := rng, drop := c.dropPermille, delay := c.maxDelay }

/-- The IDs that the loops run over. -/
def ids (s : Simulator ρ) : List Nat := List.range' 1 s.count

def post (s : Simulator ρ) (m : Message) : Option (Simulator ρ) := do
  let (lost, rng) := drawLoss s.drop s.rng
  if lost then return { s with rng := rng }
  let (d, rng) ← drawDelay s.delay rng
  return { s with
    rng := rng, seq := s.seq + 1, queue := s.queue ++ [⟨s.now + d, s.seq + 1, m⟩] }

def collectNode (s : Simulator ρ) (id : Nat) : Option (Simulator ρ) := do
  let (scratch, machines) ← s.machines.onNode id Raft.drain
  scratch.foldlM post { s with machines := machines }

def collect (s : Simulator ρ) : Option (Simulator ρ) := s.ids.foldlM collectNode s

/-- The scan for the least due message, with the position and the best one so far. -/
def scan (now : Nat) : List Scheduled → Nat → Option (Nat × Scheduled) → Option (Nat × Scheduled)
  | [], _, best => best
  | q :: rest, i, best =>
    if q.due > now then scan now rest (i + 1) best
    else
      match best with
      | none => scan now rest (i + 1) (some (i, q))
      | some (j, b) =>
        if q.due < b.due || (q.due = b.due && q.seq < b.seq) then
          scan now rest (i + 1) (some (i, q))
        else scan now rest (i + 1) (some (j, b))

def nextReady (s : Simulator ρ) : Option (Nat × Scheduled) := scan s.now s.queue 0 none

variable (sha256 : List UInt8 → List UInt8)

def record (s : Simulator ρ) (ev : Scheduled) : Simulator ρ :=
  { s with trace := sha256 (traceBlock s.now ev.seq ev.msg.fromID ev.msg.toID
      (messageCode ev.msg.type) ev.msg.term s.trace) }

def dispatch (s : Simulator ρ) (ev : Scheduled) : Option (Simulator ρ) := do
  let s := s.record sha256 ev
  let (_, machines) ← s.machines.onNode ev.msg.toID (Raft.step ev.msg)
  collect { s with
    machines := machines
    deliveries := s.deliveries ++ [⟨s.now, ev.msg.toID,
      ⟨ev.due, ev.seq, ev.msg.fromID, ev.msg.toID, ev.msg⟩⟩] }

def deliverReady : Nat → Simulator ρ → Option (Simulator ρ)
  | 0, _ => none
  | rounds + 1, s =>
    match s.nextReady with
    | none => some s
    | some (idx, ev) => do
      let s ← dispatch sha256 { s with queue := s.queue.eraseIdx idx } ev
      deliverReady rounds s

def tick (s : Simulator ρ) (id : Nat) : Option (Simulator ρ) := do
  let (_, machines) ← s.machines.onNode id Raft.tick
  return { s with machines := machines }

def step (rounds : Nat) (s : Simulator ρ) : Option (Simulator ρ) := do
  let s := { s with now := s.now + 1 }
  let s ← s.ids.foldlM tick s
  let s ← collect s
  deliverReady sha256 rounds s

/-- A proposal goes to the first node that accepts it, and its messages are collected. -/
def proposal (prog : NodeM StableStore Bool) (s : Simulator ρ) : Option (Bool × Simulator ρ) := do
  let (accepted, machines) ← Machines.firstAccepting prog s.ids s.machines
  let s := { s with machines := machines }
  if accepted then return (true, ← collect s) else return (false, s)

def crashRestart (id : Nat) (s : Simulator ρ) : Option (Bool × Simulator ρ) := do
  let (err, machines) ← s.machines.restart electionTimeout id
  match err with
  | some _ => return (false, { s with machines := machines })
  | none => return (true, { s with
      machines := machines
      queue := s.queue.filter fun ev => ev.msg.fromID ≠ id && ev.msg.toID ≠ id })

end Simulator

/-! ## The cluster of the engine -/

structure RaftCluster where
  ids : List Nat
  machines : Machines

namespace RaftCluster

def new (count : Nat) : Option RaftCluster :=
  if count < 1 then none
  else do
    return ⟨List.range' 1 count, ← Machines.start (List.range' 1 count) electionTimeout⟩

instance : Dst.Cluster RaftCluster Message where
  nodes c := c.ids
  tick id c := do
    let (_, machines) ← c.machines.onNode id Raft.tick
    return { c with machines := machines }
  deliver id msg c := do
    let (_, machines) ← c.machines.onNode id (Raft.step msg)
    return { c with machines := machines }
  drain id c := do
    let (messages, machines) ← c.machines.onNode id Raft.drain
    return (messages, { c with machines := machines })

instance : Dst.Wire Message where
  route m := (m.fromID, m.toID)
  digest m := (messageCode m.type, m.term)

end RaftCluster

/-! ## Scripts -/

/-- What a caller does to either of the two. -/
inductive Call
  | step (rounds : Nat)
  | propose (command : Raft.Word)
  | proposeJoint (voters : List Nat)
  | proposeFinal
  | compact (id : Nat) (state : List UInt8)
  | apply (id : Nat)
  | crashRestart (id : Nat)

abbrev RaftEngine (ρ : Type) := Dst.Engine RaftCluster Message ρ

variable {ρ : Type} [Dst.Rand ρ] (sha256 : List UInt8 → List UInt8)

/-- A call of the simulator, with what it reports. -/
def Simulator.exec (s : Simulator ρ) : Call → Option (Bool × Simulator ρ)
  | .step rounds => do return (true, ← s.step sha256 rounds)
  | .propose command => s.proposal (Raft.propose command)
  | .proposeJoint voters => s.proposal (Raft.proposeJoint voters)
  | .proposeFinal => s.proposal Raft.proposeFinal
  | .compact id state => do
    let (compacted, machines) ← s.machines.compact id state
    return (compacted, { s with machines := machines })
  | .apply id => do
    let (_, machines) ← s.machines.onNode id Raft.applyEntries
    return (true, { s with machines := machines })
  | .crashRestart id => s.crashRestart id

namespace RaftEngine

def new (count : Nat) (c : Dst.Config) (rng : ρ) : Option (RaftEngine ρ) := do
  return Dst.Engine.new c rng (← RaftCluster.new count)

/-- A proposal to the cluster, and a collect when it was accepted. -/
def proposal (prog : NodeM StableStore Bool) (e : RaftEngine ρ) : Option (Bool × RaftEngine ρ) := do
  let (accepted, machines) ← Machines.firstAccepting prog e.cluster.ids e.cluster.machines
  let e : RaftEngine ρ := { e with cluster := { e.cluster with machines := machines } }
  if accepted then return (true, ← e.collect) else return (false, e)

/-- A restart of the cluster's node, and an isolation when it went well. -/
def crashRestart (id : Nat) (e : RaftEngine ρ) : Option (Bool × RaftEngine ρ) := do
  let (err, machines) ← e.cluster.machines.restart electionTimeout id
  let e : RaftEngine ρ := { e with cluster := { e.cluster with machines := machines } }
  match err with
  | some _ => return (false, e)
  | none => return (true, (e.isolate id).2)

/-- The same call of the engine over its cluster. -/
def exec (e : RaftEngine ρ) : Call → Option (Bool × RaftEngine ρ)
  | .step rounds => do return (true, ← e.step sha256 rounds)
  | .propose command => e.proposal (Raft.propose command)
  | .proposeJoint voters => e.proposal (Raft.proposeJoint voters)
  | .proposeFinal => e.proposal Raft.proposeFinal
  | .compact id state => do
    let (compacted, machines) ← e.cluster.machines.compact id state
    return (compacted, { e with cluster := { e.cluster with machines := machines } })
  | .apply id => do
    let (_, machines) ← e.cluster.machines.onNode id Raft.applyEntries
    return (true, { e with cluster := { e.cluster with machines := machines } })
  | .crashRestart id => e.crashRestart id

end RaftEngine

/-- The reports of a script, and the state behind it. -/
def script {S : Type} (exec : S → Call → Option (Bool × S)) :
    List Call → S → Option (List Bool × S)
  | [], s => some ([], s)
  | call :: calls, s => do
    let (report, s) ← exec s call
    let (reports, s) ← script exec calls s
    return (report :: reports, s)

end Promtact.Sim
