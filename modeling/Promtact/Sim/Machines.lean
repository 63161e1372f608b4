import Promtact.Raft.Recover
import Promtact.Storage.RaftWal

/-!
# Simulated machines

What `sim.Simulator` and `raftcluster.Cluster` have in common, line by line: a Raft
node for each ID, each over a `stableStore` that keeps the log on an in-memory device
and the snapshot in memory.

A call that panics returns `none`; a call for an ID without a node panics too.
-/

namespace Promtact.Sim

open Function (update)
open Promtact.Raft (Node NodeM Snapshot StoreError)
open Promtact.Storage

/-! ## The store -/

/-- The log on a device, and the snapshot in memory. -/
structure StableStore where
  wal : RaftWal.Store Wal.MemoryDevice
  snapshot : Snapshot := {}

namespace StableStore

def call (op : RaftWal.Op) (s : StableStore) : Option StoreError × StableStore :=
  match op.exec s.wal with
  | .ok _ wal => (none, { s with wal := wal })
  | .error e wal => (some e.text, { s with wal := wal })

/-- Neither `SaveSnapshot` nor `CompactLog` compares the snapshot with the log. -/
instance : Raft.StableStore StableStore where
  saveHardState hard := call (.saveHardState hard)
  append index entry := call (.append index entry)
  snapshots := some {
    saveSnapshot := fun snapshot s => (none, { s with snapshot := snapshot })
    compactLog := fun index => call (.compactLog index) }

def fresh : StableStore := { wal := RaftWal.fresh }

end StableStore

/-! ## The machines -/

/-- The nodes, and the store of an ID when its node does not write to it any more. -/
structure Machines where
  nodes : Nat → Option (Node StableStore)
  detached : Nat → Option StableStore := fun _ => none

inductive RestartError
  | unknownNode (id : Nat)
  | crash (e : Wal.Error)
  | open (e : RaftWal.Error)
  | baseMismatch (snapshot base : Nat)
  deriving DecidableEq

namespace Machines

/-- New nodes over empty stores, each with all the others as peers. -/
def start (ids : List Nat) (timeout : Nat → Nat) : Option Machines :=
  ids.foldlM (fun m id => do
    let n ← (Raft.newNodeWithStore id (ids.filter (· ≠ id)) (timeout id)
      StableStore.fresh).toOption
    return { m with nodes := update m.nodes id (some n) }) ⟨fun _ => none, fun _ => none⟩

/-- A method of one node. -/
def onNode {α : Type} (id : Nat) (prog : NodeM StableStore α) (m : Machines) :
    Option (α × Machines) := do
  match prog (← m.nodes id) with
  | .ok a n => return (a, { m with nodes := update m.nodes id (some n) })
  | .error _ _ => none

/-- The first node that accepts a proposal, and whether one did. -/
def firstAccepting (prog : NodeM StableStore Bool) : List Nat → Machines → Option (Bool × Machines)
  | [], m => some (false, m)
  | id :: ids, m => do
    let (accepted, m) ← m.onNode id prog
    if accepted then return (true, m) else firstAccepting prog ids m

/-- Compacts a node at its applied index. -/
def compact (id : Nat) (state : List UInt8) (m : Machines) : Option (Bool × Machines) :=
  match m.nodes id with
  | none => some (false, m)
  | some n =>
    if n.applied ≤ n.baseIndex then some (false, m)
    else m.onNode id (Raft.compact n.applied state)

/-- The store that the machine of an ID would reboot from. -/
def store (m : Machines) (id : Nat) (n : Node StableStore) : StableStore :=
  (m.detached id).getD n.store

/-- A node is rebuilt from its store alone. When the snapshot does not fit the log, the
store is replaced although the node stays. -/
def restart (timeout : Nat → Nat) (id : Nat) (m : Machines) :
    Option (Option RestartError × Machines) :=
  match m.nodes id with
  | none => some (some (.unknownNode id), m)
  | some n =>
    match (m.store id n).wal.log.device.crash 0 with
    | .error e => some (some (.crash e), m)
    | .ok disk =>
      match (RaftWal.openStore disk : EStateM.Result _ _ _) with
      | .error e _ => some (some (.open e), m)
      | .ok wal _ =>
        let stable : StableStore := ⟨wal, (m.store id n).snapshot⟩
        let rebuilt (n : Node StableStore) : Option RestartError × Machines :=
          (none, { nodes := update m.nodes id (some n), detached := update m.detached id none })
        if wal.base ≠ 0 then
          if stable.snapshot.lastIndex ≠ wal.base then
            some (some (.baseMismatch stable.snapshot.lastIndex wal.base),
              { m with detached := update m.detached id (some stable) })
          else
            (Raft.newRecoveredNodeWithSnapshot id n.peers (timeout id) stable wal.hard
              stable.snapshot wal.data.tail).toOption.map rebuilt
        else
          (Raft.newRecoveredNode id n.peers (timeout id) stable wal.hard wal.data).toOption.map
            rebuilt

end Machines

end Promtact.Sim
