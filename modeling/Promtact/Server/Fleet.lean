import Promtact.Server.Host

/-!
# A fleet of servers

The servers of a cluster, each on its host. A message that left a server may arrive at the
host it is addressed to at any later time, any number of times, or never; nothing else
arrives. Clients send any request to any host. A host may be restarted at any time, with a
configuration that names the same voters.

Requests are numbered in the order in which they are made, and the number of a request is
its reply channel. `record` is what left the loops, with the host it left; a request that
finds the queue of the server full is answered without the server.
-/

namespace Promtact

open Function (update)
open Protocol (ClientRequest ClientResponse Status)
open Raft (Node Message Word Entry Op Panic OpenStore LawfulStore initialVoters)

variable {σ : Type}

/-- What left the server in its last round. -/
def Host.output (h : Host σ) : List Server.Output := (h.server?.map (·.output)).getD []

structure Fleet (σ : Type) where
  hosts : Nat → Host σ
  requests : List ClientRequest := []
  record : List (Nat × Server.Output) := []

namespace Fleet

inductive Event
  | deliver (id : Nat) (message : Message)
  | request (id : Nat) (request : ClientRequest)
  /-- The queue of requests is full. -/
  | refuse (id : Nat) (request : ClientRequest)
  | tick (id : Nat)
  | restart (id : Nat) (config : Server.Config)
  deriving DecidableEq

def sent? : Nat × Server.Output → Option Message
  | (_, .sent m) => some m
  | _ => none

/-- Everything that was ever sent. -/
def net (f : Fleet σ) : List Message := f.record.filterMap sent?

theorem mem_net {f : Fleet σ} {m : Message} : m ∈ f.net ↔ ∃ id, (id, .sent m) ∈ f.record := by
  unfold net
  rw [List.mem_filterMap]
  constructor
  · rintro ⟨⟨id, output⟩, hmem, hsent⟩
    cases output with
    | sent m' =>
      cases hsent
      exact ⟨id, hmem⟩
    | replied => cases hsent
    | applied => cases hsent
  · rintro ⟨id, hmem⟩
    exact ⟨_, hmem, rfl⟩

/-- The answer of a server whose queue is full. -/
def busy (request : ClientRequest) : ClientResponse where
  status := .busy
  requestID := request.requestID

variable [OpenStore σ]

/-- What happens at one host. -/
def act (f : Fleet σ) (id : Nat) (ev : Host.Event) : Option (Fleet σ) := do
  let h ← (f.hosts id).next ev
  return { f with
    hosts := update f.hosts id h
    record := f.record ++ h.output.map (id, ·) }

/-- One event; `none` when it cannot happen. -/
def step (voters : Word) (f : Fleet σ) : Event → Option (Fleet σ)
  | .deliver id m =>
    if m ∈ f.net ∧ m.toID = id then f.act id (.input (.message m)) else none
  | .request id request =>
    { f with requests := f.requests ++ [request] }.act id
      (.input (.request ⟨request, f.requests.length⟩))
  | .refuse id request => some { f with
      requests := f.requests ++ [request]
      record := f.record ++ [(id, .replied f.requests.length (busy request))] }
  | .tick id => f.act id (.input .tick)
  | .restart id config =>
    if config.id = id ∧ (initialVoters id config.peerIDs).toOption = some voters then
      f.act id (.restart config)
    else none

/-- Every voter is a new server on an empty data directory, and nothing has happened. -/
structure Initial {σ : Type} [LawfulStore σ] (voters : Word) (f : Fleet σ) : Prop where
  hosts : ∀ id, f.hosts id = .absent ∨ ∃ config store s, Server.new config store = .ok s ∧
    config.id = id ∧ s.node.votersOld = voters ∧ LawfulStore.durable store = {} ∧
    f.hosts id = .up s
  requests : f.requests = []
  record : f.record = []

/-! ## What an event does -/

variable {voters : Word} {f f' : Fleet σ} {id : Nat}

theorem act_eq_some {ev : Host.Event} : f.act id ev = some f' ↔
    ∃ h, (f.hosts id).next ev = some h ∧ f' = { f with
      hosts := update f.hosts id h
      record := f.record ++ h.output.map (id, ·) } := by
  refine Option.bind_eq_some_iff.trans (exists_congr fun h => and_congr_right fun _ => ?_)
  rw [Option.pure_def, Option.some.injEq, eq_comm]

/-- The event happens at a host, or a request is refused. -/
inductive Stepped (voters : Word) (f : Fleet σ) : Event → Fleet σ → Prop
  | deliver {id : Nat} {m : Message} {f' : Fleet σ} (hnet : m ∈ f.net) (hto : m.toID = id)
    (hact : f.act id (.input (.message m)) = some f') : Stepped voters f (.deliver id m) f'
  | request {id : Nat} {request : ClientRequest} {f' : Fleet σ}
    (hact : { f with requests := f.requests ++ [request] }.act id
      (.input (.request ⟨request, f.requests.length⟩)) = some f') :
    Stepped voters f (.request id request) f'
  | refuse {id : Nat} {request : ClientRequest} : Stepped voters f (.refuse id request) { f with
      requests := f.requests ++ [request]
      record := f.record ++ [(id, .replied f.requests.length (busy request))] }
  | tick {id : Nat} {f' : Fleet σ} (hact : f.act id (.input .tick) = some f') :
    Stepped voters f (.tick id) f'
  | restart {id : Nat} {config : Server.Config} {f' : Fleet σ} (hid : config.id = id)
    (hvoters : initialVoters id config.peerIDs = .ok voters)
    (hact : f.act id (.restart config) = some f') : Stepped voters f (.restart id config) f'

theorem stepped_of_some {ev : Event} (h : f.step voters ev = some f') :
    Stepped voters f ev f' := by
  cases ev with
  | deliver id m =>
    obtain ⟨⟨hnet, hto⟩, hact⟩ := Option.ite_none_right_eq_some.mp h
    exact .deliver hnet hto hact
  | request id request => exact .request h
  | refuse id request =>
    cases h
    exact .refuse
  | tick id => exact .tick h
  | restart id config =>
    obtain ⟨⟨hid, hvoters⟩, hact⟩ := Option.ite_none_right_eq_some.mp h
    exact .restart hid (Raft.Cluster.eq_ok_of_toOption hvoters) hact

/-! ## Schedules -/

/-- New servers with the given configurations, each over the given store. -/
def start (configs : List Server.Config) (store : σ) : Fleet σ where
  hosts id :=
    match configs.find? (·.id = id) with
    | none => .absent
    | some config =>
      match Server.new config store with
      | .ok s => .up s
      | .error _ => .absent

theorem start_initial {σ : Type} [LawfulStore σ] {configs : List Server.Config} {store : σ}
    {voters : Word} (hstore : LawfulStore.durable store = {})
    (hvoters : ∀ config ∈ configs, initialVoters config.id config.peerIDs = .ok voters) :
    (start configs store).Initial voters where
  hosts id := by
    cases hfind : configs.find? (·.id = id) with
    | none => exact Or.inl (by simp [start, hfind])
    | some config =>
      have hid : config.id = id := by simpa using List.find?_some hfind
      have hv := hvoters config (List.mem_of_find?_eq_some hfind)
      have hnew : Server.new config store = .ok { config := config, node := {
          id := config.id, peers := config.peerIDs, timeout := config.timeout
          votersOld := voters, store := store } } := by
        unfold Server.new Raft.newNodeWithStore
        rw [hv]
        rfl
      exact Or.inr ⟨config, store, _, hnew, hid, rfl, hstore, by simp [start, hfind, hnew]⟩
  requests := rfl
  record := rfl

/-- A move of a schedule; a message is named by its position among those that were sent. -/
inductive Move
  | tick (id : Nat)
  | request (id : Nat) (request : ClientRequest)
  | deliver (position : Nat)
  | restart (id : Nat) (config : Server.Config)

def Move.event? (f : Fleet σ) : Move → Option Event
  | .tick id => some (.tick id)
  | .request id r => some (.request id r)
  | .deliver position => (f.net[position]?).map fun m => .deliver m.toID m
  | .restart id config => some (.restart id config)

/-- The events of a schedule from a state on. -/
def schedule (voters : Word) : Fleet σ → List Move → List Event
  | _, [] => []
  | f, move :: moves =>
    match move.event? f with
    | none => []
    | some ev =>
      ev :: match f.step voters ev with
        | some f' => schedule voters f' moves
        | none => []

end Fleet

end Promtact
