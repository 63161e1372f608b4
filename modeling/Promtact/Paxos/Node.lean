import Mathlib

/-!
# Single-decree Paxos: the model

The worked example of a protocol that is not Raft (`examples/paxos`). Every node is
proposer and acceptor; it answers its own prepare and accept in line and sends
messages to the others. Proposal numbers are natural numbers: nothing below depends
on them wrapping.

A world is a cluster and the messages in flight. A delivery takes any of them; a
delivery that keeps the message is a duplication, and a message that is never
delivered is lost.
-/

namespace Promtact.Paxos

open Function (update)

/-! ## Messages -/

inductive Kind
  | prepare | promise | accept | accepted
  deriving DecidableEq, Repr

abbrev Value := BitVec 64

structure Message where
  kind : Kind
  fromID : Nat
  toID : Nat
  num : Nat
  val : Value := 0
  ok : Bool := false
  acceptedNum : Nat := 0
  acceptedVal : Value := 0
  hasAccepted : Bool := false
  deriving DecidableEq, Repr

inductive Phase
  | idle | preparing | accepting | decided
  deriving DecidableEq, Repr

structure Acceptance where
  num : Nat
  val : Value
  deriving DecidableEq, Repr

/-! ## The node -/

structure Node where
  id : Nat
  size : Nat
  peers : List Nat
  promised : Nat := 0
  acceptedNum : Nat := 0
  acceptedVal : Value := 0
  hasAccepted : Bool := false
  /-- Every acceptance that the node ever made, oldest first. -/
  accepts : List Acceptance := []
  phase : Phase := .idle
  round : Nat := 0
  myNum : Nat := 0
  myVal : Value := 0
  promiseMask : BitVec 64 := 0
  acceptMask : BitVec 64 := 0
  bestNum : Nat := 0
  bestVal : Value := 0
  hasBest : Bool := false
  elapsed : Nat := 0
  timeout : Nat
  adopted : Nat := 0
  outbound : List Message := []
  deriving DecidableEq

/-- The IDs of a cluster. -/
def members (size : Nat) : List Nat := List.range' 1 size

def newNode (id size timeout : Nat) : Node where
  id := id
  size := size
  peers := (members size).filter (· ≠ id)
  timeout := timeout

def bit (id : Nat) : BitVec 64 := 1#64 <<< (id - 1)

/-- The loop of `popcount`; the first argument bounds its rounds. -/
def popcountLoop : Nat → BitVec 64 → Nat
  | 0, _ => 0
  | rounds + 1, mask => if mask = 0 then 0 else popcountLoop rounds (mask &&& (mask - 1)) + 1

def popcount (mask : BitVec 64) : Nat := popcountLoop 64 mask

namespace Node

def quorum (n : Node) : Nat := n.size / 2 + 1

/-- What an acceptor answers to a prepare. -/
structure Answer where
  ok : Bool := false
  accNum : Nat := 0
  accVal : Value := 0
  hasAcc : Bool := false
  deriving DecidableEq, Repr

def onPrepare (n : Node) (num : Nat) : Answer × Node :=
  if num ≤ n.promised then ({}, n)
  else (⟨true, n.acceptedNum, n.acceptedVal, n.hasAccepted⟩, { n with promised := num })

def onAccept (n : Node) (num : Nat) (val : Value) : Bool × Node :=
  if num < n.promised then (false, n)
  else (true, { n with
    promised := num
    acceptedNum := num, acceptedVal := val, hasAccepted := true
    accepts := n.accepts ++ [⟨num, val⟩] })

/-- One promise is counted, and its report may be the best so far. -/
def countPromise (n : Node) (fromID accNum : Nat) (accVal : Value) (hasAcc : Bool) : Node :=
  let n := { n with promiseMask := n.promiseMask ||| bit fromID }
  if hasAcc && (!n.hasBest || accNum > n.bestNum) then
    { n with bestNum := accNum, bestVal := accVal, hasBest := true }
  else n

/-- The highest-numbered value that was accepted takes the place of the own one. -/
def adopt (n : Node) : Node :=
  if n.hasBest then
    { n with
      adopted := if n.bestVal ≠ n.myVal then n.adopted + 1 else n.adopted
      myVal := n.bestVal }
  else n

/-- The own acceptor votes first. -/
def acceptOwn (n : Node) : Node :=
  let (ok, n) := n.onAccept n.myNum n.myVal
  if ok then { n with acceptMask := n.acceptMask ||| bit n.id } else n

/-- Phase two, once a quorum has promised. -/
def beginAccept (n : Node) : Node :=
  let n := { n.adopt with phase := .accepting, acceptMask := 0 }
  let n := n.acceptOwn
  if popcount n.acceptMask ≥ n.quorum then { n with phase := .decided }
  else { n with
    outbound := n.outbound ++ n.peers.map fun peer =>
      { kind := .accept, fromID := n.id, toID := peer, num := n.myNum, val := n.myVal } }

def recordPromise (n : Node) (fromID accNum : Nat) (accVal : Value) (hasAcc : Bool) : Node :=
  let n := n.countPromise fromID accNum accVal hasAcc
  if popcount n.promiseMask < n.quorum then n else n.beginAccept

/-- A new round with a number of its own. -/
def newRound (n : Node) (val : Value) : Node :=
  let round := max (n.round + 1) (n.promised / n.size + 1)
  { n with
    round := round
    myNum := round * n.size + n.id
    myVal := val
    phase := .preparing
    elapsed := 0
    promiseMask := 0, acceptMask := 0
    hasBest := false }

def propose (n : Node) (val : Value) : Node :=
  let n := n.newRound val
  let (answer, n) := n.onPrepare n.myNum
  let n :=
    if answer.ok then n.recordPromise n.id answer.accNum answer.accVal answer.hasAcc else n
  { n with
    outbound := n.outbound ++ n.peers.map fun peer =>
      { kind := .prepare, fromID := n.id, toID := peer, num := n.myNum } }

def tick (n : Node) : Node :=
  if n.phase ≠ .preparing && n.phase ≠ .accepting then n
  else
    let n := { n with elapsed := n.elapsed + 1 }
    if n.elapsed ≥ n.timeout then n.propose n.myVal else n

def send (n : Node) (m : Message) : Node := { n with outbound := n.outbound ++ [m] }

def step (n : Node) (m : Message) : Node :=
  match m.kind with
  | .prepare =>
    let (answer, n) := n.onPrepare m.num
    n.send {
      kind := .promise, fromID := n.id, toID := m.fromID, num := m.num, ok := answer.ok
      acceptedNum := answer.accNum, acceptedVal := answer.accVal, hasAccepted := answer.hasAcc }
  | .promise =>
    if m.num ≠ n.myNum || n.phase ≠ .preparing || !m.ok then n
    else n.recordPromise m.fromID m.acceptedNum m.acceptedVal m.hasAccepted
  | .accept =>
    let (ok, n) := n.onAccept m.num m.val
    n.send { kind := .accepted, fromID := n.id, toID := m.fromID, num := m.num, ok := ok }
  | .accepted =>
    if m.num ≠ n.myNum || n.phase ≠ .accepting || !m.ok then n
    else
      let n := { n with acceptMask := n.acceptMask ||| bit m.fromID }
      if popcount n.acceptMask ≥ n.quorum then { n with phase := .decided } else n

end Node

/-! ## The cluster -/

structure Cluster where
  ids : List Nat
  nodes : Nat → Node

namespace Cluster

/-- A new cluster of `count` nodes, with a timeout for each. -/
def new (count : Nat) : Cluster where
  ids := members count
  nodes id := newNode id count (12 + id * 3)

/-- All acceptances, node by node. -/
def acceptances (c : Cluster) : List Acceptance := c.ids.flatMap fun id => (c.nodes id).accepts

/-- Every distinct value with a quorum of acceptances at one number, in the order
they are first seen. -/
def chosenValues (c : Cluster) : List Value :=
  ((c.acceptances.filter fun a => c.acceptances.count a ≥ c.ids.length / 2 + 1).map (·.val)).foldl
    (fun found val => if val ∈ found then found else found ++ [val]) []

/-- What a check reports. -/
inductive Violation
  | chosen (values : List Value)
  | promise (id num promised : Nat)
  | history (id later earlier : Nat)
  deriving DecidableEq, Repr

def checkSingleChoice (c : Cluster) : Option Violation :=
  if c.chosenValues.length > 1 then some (.chosen c.chosenValues) else none

def checkPromiseRespected (c : Cluster) : Option Violation :=
  c.ids.findSome? fun id =>
    let n := c.nodes id
    if n.hasAccepted && n.acceptedNum > n.promised then
      some (.promise id n.acceptedNum n.promised)
    else none

def checkHistoryMonotonic (c : Cluster) : Option Violation :=
  c.ids.findSome? fun id =>
    let history := (c.nodes id).accepts
    (history.zip history.tail).findSome? fun (earlier, later) =>
      if later.num < earlier.num then some (.history id later.num earlier.num) else none

/-- The three properties that the engine checks after every step. -/
def safetyInvariants (c : Cluster) : List (Option Violation) :=
  [c.checkSingleChoice, c.checkPromiseRespected, c.checkHistoryMonotonic]

end Cluster

/-! ## Runs -/

structure World extends Cluster where
  /-- The messages in flight. -/
  net : List Message := []

inductive Event
  | propose (id : Nat) (val : Value)
  | tick (id : Nat)
  | drain (id : Nat)
  /-- The message at a position arrives, and stays in flight when it is duplicated. -/
  | deliver (position : Nat) (duplicate : Bool)
  deriving DecidableEq

namespace World

def start (size : Nat) : World := { Cluster.new size with }

def set (w : World) (id : Nat) (n : Node) : World := { w with nodes := update w.nodes id n }

/-- One event; `none` when it cannot happen. -/
def step (w : World) : Event → Option World
  | .propose id val => if id ∈ w.ids then some (w.set id ((w.nodes id).propose val)) else none
  | .tick id => if id ∈ w.ids then some (w.set id (w.nodes id).tick) else none
  | .drain id =>
    if id ∈ w.ids then
      some { w.set id { w.nodes id with outbound := [] } with
        net := w.net ++ (w.nodes id).outbound }
    else none
  | .deliver position duplicate =>
    match w.net[position]? with
    | some m =>
      if m.toID ∈ w.ids then
        some { w.set m.toID ((w.nodes m.toID).step m) with
          net := if duplicate then w.net else w.net.eraseIdx position }
      else none
    | none => none

def run (w : World) (events : List Event) : Option World := events.foldlM step w

end World

end Promtact.Paxos
