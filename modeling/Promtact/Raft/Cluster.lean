import Promtact.Raft.Store

/-!
# A cluster of nodes

A cluster is a process per node ID and everything that was ever sent. The network
may lose, duplicate, delay and reorder messages, so a delivery picks any message
that was sent to the node; it never invents one. A process that panics is down
until it is restarted from its store; its last state stays visible, since what a
node has committed before it went down counts.

`Cluster.step` takes one event and `Cluster.run` a list of events; both compute.
-/

namespace Promtact.Raft

open Function (update)
open Node (indexes)

variable {σ : Type}

section Processes

variable [StableStore σ]

/-! ## Operations of one node -/

inductive Op
  | tick
  | step (m : Message)
  | propose (command : Word)
  | proposeRequest (operation : CommandOp) (clientID requestID key value : Word)
  | proposeJoint (newVoters : List Nat)
  | proposeFinal
  | transferLeadership (target : Nat)
  | startReadIndex (context : Word)
  | applyEntries
  | compact (index : Nat) (state : List UInt8)
  | drain
  deriving DecidableEq

/-- What an operation hands to its caller. -/
inductive Output
  | nothing
  | accepted (ok : Bool)
  | entries (entries : List Entry)
  | messages (messages : List Message)
  deriving DecidableEq

namespace Op

def exec : Op → NodeM σ Output
  | tick => do Raft.tick; return .nothing
  | step m => do Raft.step m; return .nothing
  | propose command => return .accepted (← Raft.propose command)
  | proposeRequest operation clientID requestID key value =>
    return .accepted (← Raft.proposeRequest operation clientID requestID key value)
  | proposeJoint newVoters => return .accepted (← Raft.proposeJoint newVoters)
  | proposeFinal => return .accepted (← Raft.proposeFinal)
  | transferLeadership target => return .accepted (← Raft.transferLeadership target)
  | startReadIndex context => return .accepted (← Raft.startReadIndex context)
  | applyEntries => return .entries (← Raft.applyEntries)
  | compact index state => return .accepted (← Raft.compact index state)
  | drain => return .messages (← Raft.drain)

end Op

/-! ## Processes -/

inductive Proc (σ : Type)
  | absent
  | up (n : Node σ)
  | down (n : Node σ)

namespace Proc

/-- The state a process has, or had when it went down. -/
def node? : Proc σ → Option (Node σ)
  | absent => none
  | up n => some n
  | down n => some n

variable (p : Proc σ) (P : Node σ → Prop) [DecidablePred P]

instance : Decidable (∀ s, p = .up s → P s) :=
  match p with
  | .up s => decidable_of_iff (P s) ⟨fun h s' hs => by cases hs; exact h, fun h => h s rfl⟩
  | .absent => isTrue fun _ hs => nomatch hs
  | .down _ => isTrue fun _ hs => nomatch hs

instance : Decidable (∃ s, p = .up s ∧ P s) :=
  match p with
  | .up s => decidable_of_iff (P s) ⟨fun h => ⟨s, rfl, h⟩, fun ⟨_, hs, h⟩ => by cases hs; exact h⟩
  | .absent => isFalse fun ⟨_, hs, _⟩ => nomatch hs
  | .down _ => isFalse fun ⟨_, hs, _⟩ => nomatch hs

end Proc

/-- Recovery as the server does it: the snapshot is used when there is one. -/
def recover (id : Nat) (peers : List Nat) (timeout : Nat) (store : σ)
    (recovery : Recovery) : Except Panic (Node σ) :=
  if recovery.snapshot.lastIndex ≠ 0 then
    newRecoveredNodeWithSnapshot id peers timeout store recovery.hard recovery.snapshot
      recovery.suffix
  else newRecoveredNode id peers timeout store recovery.hard ({} :: recovery.suffix)

/-! ## The cluster -/

/-- Entries a node hands to its state machine, with their indexes. -/
structure Application where
  node : Nat
  index : Nat
  entry : Entry
  deriving DecidableEq

structure Cluster (σ : Type) where
  procs : Nat → Proc σ
  /-- Everything that was ever sent. -/
  net : List Message := []
  /-- Every entry that a node ever applied. -/
  applied : List Application := []

inductive Event
  | op (id : Nat) (op : Op)
  | restart (id : Nat) (peers : List Nat) (timeout : Nat)
  deriving DecidableEq

/-- What `applyEntries` hands out at this node. -/
def Node.applications (n : Node σ) : List Application :=
  (indexes (n.applied + 1) n.commit).filterMap fun index => do
    let entry ← n.entryAt? index
    if entry.kind = .normal then some ⟨n.id, index, entry⟩ else none

end Processes

variable [OpenStore σ]

namespace Cluster

/-- A message is delivered only when it was sent, and to the node it was sent to. -/
def Deliverable (c : Cluster σ) (id : Nat) : Op → Prop
  | .step m => m ∈ c.net ∧ m.toID = id
  | _ => True

instance (c : Cluster σ) (id : Nat) (op : Op) : Decidable (c.Deliverable id op) :=
  match op with
  | .step m => inferInstanceAs (Decidable (m ∈ c.net ∧ m.toID = id))
  | .tick | .propose _ | .proposeRequest .. | .proposeJoint _ | .proposeFinal
  | .transferLeadership _ | .startReadIndex _ | .applyEntries | .compact .. | .drain =>
    isTrue trivial

def execOp (c : Cluster σ) (id : Nat) (n : Node σ) (op : Op) : Cluster σ :=
  match op.exec n with
  | .error _ n' => { c with procs := update c.procs id (.down n') }
  | .ok output n' =>
    { procs := update c.procs id (.up n')
      net := match output with
        | .messages messages => c.net ++ messages
        | _ => c.net
      applied := if op = .applyEntries then c.applied ++ n.applications else c.applied }

/-- A restart opens the store and rebuilds the node, with the configured voters. -/
def restartNode (voters : Word) (c : Cluster σ) (id : Nat) (peers : List Nat)
    (timeout : Nat) : Option (Cluster σ) := do
  let n ← (c.procs id).node?
  guard ((initialVoters id peers).toOption = some voters)
  let (store, recovery) ← OpenStore.reopen n.store
  match recover id peers timeout store recovery with
  | .ok n' => some { c with procs := update c.procs id (.up n') }
  | .error _ => none

/-- One event; `none` when it cannot happen. -/
def step (voters : Word) (c : Cluster σ) : Event → Option (Cluster σ)
  | .op id op =>
    match c.procs id with
    | .up n => if c.Deliverable id op then some (c.execOp id n op) else none
    | _ => none
  | .restart id peers timeout => c.restartNode voters id peers timeout

/-- What an operation needs, and what it does. -/
theorem step_op {voters : Word} {c c' : Cluster σ} {id : Nat} {op : Op} :
    c.step voters (.op id op) = some c' ↔
      ∃ s, c.procs id = .up s ∧ c.Deliverable id op ∧ c.execOp id s op = c' := by
  unfold step
  cases hup : c.procs id with
  | absent => simp [hup]
  | down s => simp [hup]
  | up s => by_cases hdel : c.Deliverable id op <;> simp [hup, hdel]

/-- What a restart needs, and what it does. -/
theorem step_restart {voters : Word} {c c' : Cluster σ} {id timeout : Nat} {peers : List Nat} :
    c.step voters (.restart id peers timeout) = some c' ↔
      ∃ s store recovery s', (c.procs id).node? = some s ∧
        (initialVoters id peers).toOption = some voters ∧
        OpenStore.reopen s.store = some (store, recovery) ∧
        recover id peers timeout store recovery = .ok s' ∧
        { c with procs := update c.procs id (.up s') } = c' := by
  show c.restartNode voters id peers timeout = some c' ↔ _
  unfold restartNode
  constructor
  · intro h
    obtain ⟨s, hs, h⟩ := Option.bind_eq_some_iff.mp h
    obtain ⟨_, hguard, h⟩ := Option.bind_eq_some_iff.mp h
    obtain ⟨⟨store, recovery⟩, hopen, h⟩ := Option.bind_eq_some_iff.mp h
    have hv : (initialVoters id peers).toOption = some voters := by
      by_contra hno
      simp [guard, hno] at hguard
    cases hrec : recover id peers timeout store recovery with
    | error e => simp [hrec] at h
    | ok s' =>
      simp only [hrec, Option.some.injEq] at h
      exact ⟨s, store, recovery, s', hs, hv, hopen, hrec, h⟩
  · rintro ⟨s, store, recovery, s', hs, hv, hopen, hrec, rfl⟩
    simp [hs, hv, hopen, hrec, guard]

def run (voters : Word) (c : Cluster σ) (events : List Event) : Option (Cluster σ) :=
  events.foldlM (step voters) c

/-! ## Runs -/

section Runs

variable {c c' : Cluster σ}

/-- Every event of the run meets a condition on the state it happens in. -/
def Always (voters : Word) (p : Cluster σ → Event → Prop) :
    Cluster σ → List Event → Prop
  | _, [] => True
  | c, ev :: events => p c ev ∧ ∀ c', c.step voters ev = some c' → Always voters p c' events

instance Always.decidable {voters : Word} {p : Cluster σ → Event → Prop}
    [∀ c ev, Decidable (p c ev)] :
    ∀ (c : Cluster σ) (events : List Event), Decidable (c.Always voters p events)
  | _, [] => isTrue trivial
  | c, ev :: events =>
    match hstep : c.step voters ev with
    | none => decidable_of_iff (p c ev) ⟨fun h => ⟨h, fun c' hc => by rw [hstep] at hc; cases hc⟩,
        And.left⟩
    | some c' =>
      have : Decidable (c'.Always voters p events) := decidable c' events
      decidable_of_iff (p c ev ∧ c'.Always voters p events)
        (and_congr_right fun _ => ⟨fun h c₁ hc => by rw [hstep] at hc; cases hc; exact h,
          fun h => h c' hstep⟩)

theorem run_cons {voters : Word} {ev : Event} {events : List Event}
    (hr : c.run voters (ev :: events) = some c') :
    ∃ c₁, c.step voters ev = some c₁ ∧ c₁.run voters events = some c' := by
  unfold Cluster.run at hr
  rw [List.foldlM_cons] at hr
  exact Option.bind_eq_some_iff.mp hr

theorem run_append {voters : Word} {before after : List Event} :
    c.run voters (before ++ after) = (c.run voters before).bind (·.run voters after) :=
  List.foldlM_append

/-- No process comes from nowhere. -/
theorem run_absent {voters : Word} {events : List Event} {id : Nat} (hid : c.procs id = .absent)
    (hr : c.run voters events = some c') : c'.procs id = .absent := by
  induction events generalizing c with
  | nil =>
    cases hr
    exact hid
  | cons ev events ih =>
    obtain ⟨c₁, hstep, hrest⟩ := run_cons hr
    refine ih ?_ hrest
    cases ev with
    | op id' op =>
      obtain ⟨s, hup, _, rfl⟩ := step_op.mp hstep
      have hne : id ≠ id' := by
        rintro rfl
        rw [hid] at hup
        cases hup
      unfold execOp
      split <;> simpa [hne] using hid
    | restart id' peers timeout =>
      obtain ⟨s, store, recovery, s', hs, _, _, _, rfl⟩ := step_restart.mp hstep
      have hne : id ≠ id' := by
        rintro rfl
        rw [hid] at hs
        cases hs
      simpa [hne] using hid

/-- The events of a run happen in states of the run. -/
theorem Always.reached {voters : Word} {p : Cluster σ → Event → Prop} {c₀ : Cluster σ}
    {before events : List Event} (hp : c.Always voters p events)
    (hrun : c₀.run voters before = some c) :
    c.Always voters (fun c ev => p c ev ∧ ∃ b a, before ++ events = b ++ a ∧
      c₀.run voters b = some c) events := by
  induction events generalizing c before with
  | nil => trivial
  | cons ev events ih =>
    refine ⟨⟨hp.1, before, ev :: events, rfl, hrun⟩, fun c' hstep => ?_⟩
    have hrun' : c₀.run voters (before ++ [ev]) = some c' := by
      rw [Cluster.run_append, hrun]
      simp [Cluster.run, hstep]
    have := ih (hp.2 c' hstep) hrun'
    rwa [List.append_assoc, List.singleton_append] at this

end Runs

/-! ## Initial states -/

/-- Every voter is a new node over the given store, and nothing was sent. -/
structure New (voters : Word) (store : σ) (c : Cluster σ) : Prop where
  procs : ∀ id, c.procs id = .absent ∨ ∃ peers timeout n,
    newNodeWithStore id peers timeout store = .ok n ∧ n.votersOld = voters ∧ c.procs id = .up n
  net : c.net = []
  applied : c.applied = []

/-- Every voter is a new node with an empty store, and nothing was sent. -/
structure Initial {σ : Type} [LawfulStore σ] (voters : Word) (c : Cluster σ) : Prop where
  procs : ∀ id, c.procs id = .absent ∨ ∃ peers timeout store n,
    newNodeWithStore id peers timeout store = .ok n ∧ n.votersOld = voters ∧
    LawfulStore.durable store = {} ∧ c.procs id = .up n
  net : c.net = []
  applied : c.applied = []

theorem New.initial {σ : Type} [LawfulStore σ] {voters : Word} {store : σ} {c : Cluster σ}
    (h : c.New voters store) (hempty : LawfulStore.durable store = {}) : c.Initial voters where
  procs id := by
    rcases h.procs id with habsent | ⟨peers, timeout, n, hnew, hvoters, hup⟩
    · exact Or.inl habsent
    · exact Or.inr ⟨peers, timeout, store, n, hnew, hvoters, hempty, hup⟩
  net := h.net
  applied := h.applied

/-! ## Schedules -/

theorem eq_ok_of_toOption {ε α : Type} {a : Except ε α} {x : α} (h : a.toOption = some x) :
    a = .ok x := by
  cases a with
  | error e => cases h
  | ok y => cases h; rfl

/-- New nodes with the same store, each with all the others as peers. -/
def start (ids : List Nat) (timeout : Nat → Nat) (store : σ) : Cluster σ where
  procs id :=
    if id ∈ ids then
      match newNodeWithStore id (ids.filter (· ≠ id)) (timeout id) store with
      | .ok n => .up n
      | .error _ => .absent
    else .absent

omit [OpenStore σ] in
theorem start_new {ids : List Nat} {timeout : Nat → Nat} {store : σ} {voters : Word}
    (hids : ∀ id ∈ ids, (initialVoters id (ids.filter (· ≠ id))).toOption = some voters) :
    (start ids timeout store).New voters store where
  procs id := by
    by_cases hid : id ∈ ids
    · have hnew : newNodeWithStore id (ids.filter (· ≠ id)) (timeout id) store = .ok {
          id := id, peers := ids.filter (· ≠ id), timeout := timeout id, votersOld := voters
          store := store } := by
        unfold newNodeWithStore
        rw [eq_ok_of_toOption (hids id hid)]
        rfl
      refine Or.inr ⟨_, _, _, hnew, rfl, ?_⟩
      show (if id ∈ ids then _ else _) = _
      rw [if_pos hid, hnew]
    · exact Or.inl (if_neg hid)
  net := rfl
  applied := rfl

theorem start_initial {σ : Type} [LawfulStore σ] {ids : List Nat} {timeout : Nat → Nat}
    {store : σ} {voters : Word} (hstore : LawfulStore.durable store = {})
    (hids : ∀ id ∈ ids, (initialVoters id (ids.filter (· ≠ id))).toOption = some voters) :
    (start ids timeout store).Initial voters :=
  (start_new hids).initial hstore

/-- A move of a schedule: an operation of a node, the delivery of the message at a
position of the network, or a restart. Whatever the node sends goes out at once. -/
inductive Move
  | act (id : Nat) (op : Op)
  | deliver (position : Nat)
  | restart (id : Nat) (peers : List Nat) (timeout : Nat)

/-- The events that a move stands for. -/
def Move.events (c : Cluster σ) : Move → List Event
  | act id op => [.op id op, .op id .drain]
  | deliver position =>
    match c.net[position]? with
    | some m => [.op m.toID (.step m), .op m.toID .drain]
    | none => []
  | restart id peers timeout => [.restart id peers timeout]

/-- The events of a schedule from a state on. -/
def schedule (voters : Word) : Cluster σ → List Move → List Event
  | _, [] => []
  | c, move :: moves =>
    move.events c ++
      match c.run voters (move.events c) with
      | some c' => schedule voters c' moves
      | none => []

/-- A check of two states of a run, by computing the run. -/
theorem run_check (c : Cluster σ) (v : Word) (before after : List Event)
    (p : Cluster σ → Cluster σ → Prop) [∀ c₁ c₂, Decidable (p c₁ c₂)]
    (h : ((c.run v before).bind fun c₁ => (c₁.run v after).map fun c₂ => decide (p c₁ c₂)) =
      some true) :
    ∃ c₁ c₂, c.run v before = some c₁ ∧ c₁.run v after = some c₂ ∧ p c₁ c₂ := by
  obtain ⟨c₁, h₁, h⟩ := Option.bind_eq_some_iff.mp h
  obtain ⟨c₂, h₂, h⟩ := Option.map_eq_some_iff.mp h
  exact ⟨c₁, c₂, h₁, h₂, of_decide_eq_true h⟩

end Cluster

end Promtact.Raft
