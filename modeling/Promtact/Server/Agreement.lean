import Promtact.Server.Opening
import Promtact.Server.Replicas

/-!
# The machines of a fleet and the replicated log

The machine of a server is the one that the committed log up to its applied index computes,
as long as no node takes over a snapshot from beyond what it has applied. The node then
moves its applied index, but the loop of the server does not restore the machine from the
snapshot, as `Open` does: in `laggingRun` the third server has applied what the first one
has, and its machine is empty.
-/

namespace Promtact

open Function (update)
open QuorumLog
open Protocol (ClientRequest ClientResponse Status)
open Raft (Node Message Word Entry Op Disk LawfulStore OpenStore StableStore Setting OpSafe
  initialVoters)
open StateMachine (Machine normal machineOf)

variable {σ : Type}

/-! ## The log of a history -/

/-- Everything that a history has committed is part of one log. -/
theorem History.exists_log {voters : Word} {h : History Nat Entry}
    (hv : h.Valid (Raft.protocol voters)) :
    ∃ log : Nat → Entry, ∀ t y, h.Committed t y → (List.range' 1 y.length).map log = y := by
  classical
  let Shows (i : Nat) (e : Entry) : Prop := ∃ t y, h.Committed t y ∧ y[i]? = some e
  have hunique : ∀ i e e', Shows i e → Shows i e' → e = e' := by
    rintro i e e' ⟨t, y, hy, he⟩ ⟨u, z, hz, he'⟩
    have hsome := hv.committed_getElem hy hz he (List.getElem?_eq_some_iff.mp he').1
    exact Option.some.inj (hsome.symm.trans he')
  refine ⟨fun i => if hx : ∃ e, Shows (i - 1) e then hx.choose else {}, fun t y hy => ?_⟩
  refine List.ext_getElem? fun i => ?_
  rw [List.getElem?_map]
  cases hi : y[i]? with
  | none =>
    have hlen : y.length ≤ i := List.getElem?_eq_none_iff.mp hi
    rw [List.getElem?_eq_none (by simpa using hlen)]
    rfl
  | some e =>
    have hlt : i < y.length := (List.getElem?_eq_some_iff.mp hi).1
    have hshows : ∃ e', Shows i e' := ⟨e, t, y, hy, hi⟩
    rw [List.getElem?_range' hlt]
    simp only [Option.map_some, Nat.one_mul, Nat.add_sub_cancel_left, dif_pos hshows]
    exact congrArg some (hunique i _ _ hshows.choose_spec ⟨t, y, hy, hi⟩)

namespace Fleet

/-! ## What a step has to keep to -/

/-- No node takes over a snapshot from beyond what it has applied. -/
def StaysBehind (f : Fleet σ) : Event → Prop
  | .deliver id m => ∀ s, f.hosts id = .up s → ¬ s.node.Overtakes m
  | _ => True

instance (f : Fleet σ) (ev : Event) : Decidable (f.StaysBehind ev) := by
  unfold StaysBehind
  split <;> infer_instance

section Agreement

variable [LawfulStore σ]

/-- The state of every snapshot is the one of the log that it covers. -/
def replicaSetting (σ : Type) [LawfulStore σ] (voters : Word) : Setting σ where
  voters := voters
  reconf := False
  orderly := False
  Image y st := st = (machineOf y).snapshot
  fresh := False
  started _ _ := none
  reliable := False
  reliable_store := Raft.store_of_never
  reliable_orderly := Raft.orderly_of_never
  fresh_fixed := Raft.fixed_of_never
  Own _ y st := st = (machineOf y).snapshot

variable {voters : Word} {f f' : Fleet σ} {c : Raft.Cluster σ} {h : History Nat Entry}

theorem replica_safe {ev : Event}
    (hf : FleetSim (replicaSetting σ voters) True f c h)
    (hbehind : StaysBehind f ev) (hstep : f.step voters ev = some f') :
    FleetSim.Safe (replicaSetting σ voters) True f h f' ev := by
  refine FleetSim.safe_of_step (K := replicaSetting σ voters) hf (fun h => h) hstep ?_
    (fun _ _ _ _ _ _ _ _ => Or.inl fun _ => trivial) fun _ _ y _ hm => ?_
  · rintro id m s rfl hup
    refine ⟨?_, fun _ => hbehind s hup⟩
    exact {
      voters := False.elim, held := False.elim, single := False.elim, reach := False.elim
      own := fun _ _ _ _ _ _ himage => himage }
  · rw [hm trivial]
    exact ⟨rfl, rfl⟩

/-- There is one log such that at every moment of the run the machine of every server is
the one that the log computes up to the applied index. The log is that of the run: what a
server gave to its machine in its last round, or when it started, are the last normal
entries of the log up to its applied index, also where it has compacted them since, and
what the server holds as committed is part of the log. No node may take over a snapshot
whose last index is above its applied index, in any step of the run. -/
theorem machine_equals_log {f₀ : Fleet σ} {events : List Event} (hinit : f₀.Initial voters)
    (hbehind : Runs.Always (step voters) StaysBehind f₀ events)
    (hrun : Runs.run (step voters) f₀ events = some f) :
    ∃ log : Nat → Entry, ∀ before after f₁, events = before ++ after →
      Runs.run (step voters) f₀ before = some f₁ → ∀ id s, f₁.hosts id = .up s →
        s.machine = machineOf ((List.range' 1 s.node.applied).map log) ∧
        s.given <:+ normal ((List.range' 1 s.node.applied).map log) ∧
        ∀ i, s.node.baseIndex < i → i ≤ s.node.commit → s.node.entryAt? i = some (log i) := by
  obtain ⟨c₀, hf₀⟩ := Initial.sim (K := replicaSetting σ voters) True hinit fun _ _ => rfl
  obtain ⟨c, h, hf, _, hall⟩ := hf₀.run_all (fun hrec => hrec) (fun _ id y st hown => hown)
    (fun f c h ev f' hf hp hstep => replica_safe hf hp hstep) hbehind hrun
  obtain ⟨log, hlog⟩ := History.exists_log hf.sim.sane.valid
  refine ⟨log, fun before after f₁ hsplit hrun₁ id s hup => ?_⟩
  obtain ⟨c₁, h₁, hf₁, hlater⟩ := hall before after f₁ hsplit hrun₁
  obtain ⟨t, y, hy, hlen, hmachine, hgiven⟩ := hf₁.machines id s hup trivial
  rw [← hlen, hlog t y (hlater.committed hy)]
  refine ⟨hmachine, hgiven, fun i hbase hcommit => ?_⟩
  have hproc := hf₁.mirrors.procs id
  rw [hup] at hproc
  have hd := Raft.ProcInv.down hf₁.sim.sane (hf₁.sim.procs id) (s := s.node) (by rw [hproc]; rfl)
  obtain ⟨x, hview, _, _, _, hcx, _⟩ := hd.past
  obtain ⟨e, he⟩ : ∃ e, s.node.entryAt? i = some e := by
    rw [hview.entryAt? hbase (by omega)]
    exact ⟨_, List.getElem?_eq_getElem (by omega)⟩
  obtain ⟨y, hy, hpos, hentry⟩ := hd.shows hbase hcommit he
  have hlt : i - 1 < y.length := (List.getElem?_eq_some_iff.mp hentry).1
  rw [← hlog _ y (hlater.committed hy), List.getElem?_map, List.getElem?_range' hlt] at hentry
  rw [he, ← hentry, show 1 + 1 * (i - 1) = i by omega]
  rfl

end Agreement

/-! ## A server that lags -/

/-- Three servers. The first starts an election with its first tick, and compacts once it
has applied two entries. -/
def threeConfigs : List Server.Config :=
  [{ id := 1, peers := [1, 2, 3], electionTicks := 1, snapshotEntries := 2 },
    { id := 2, peers := [1, 2, 3] }, { id := 3, peers := [1, 2, 3] }]

def threeServers : Fleet Disk := start threeConfigs {}

theorem threeServers_initial : threeServers.Initial 7 := by
  refine start_initial rfl fun config hconfig => ?_
  fin_cases hconfig <;> rfl

/-- The first server is elected by the second, which also acknowledges a put of 6 under
key 5. Nothing has reached the third server yet. -/
def committedMoves : List Move :=
  [.tick 1, .deliver 0, .deliver 2, .deliver 3, .deliver 5, .deliver 6, .deliver 8, .deliver 9,
    .deliver 10, .request 1 ⟨.put, 1, 1, 5, 6⟩, .deliver 13, .deliver 15]

def committedRun : List Event := schedule 7 threeServers committedMoves

theorem machine_equals_log_committedRun : ∃ (f : Fleet Disk) (s : Server Disk) (log : Nat → Entry),
    Runs.run (step 7) threeServers committedRun = some f ∧ f.hosts 1 = .up s ∧
    s.node.applied = 2 ∧ s.machine.get 5 = some 6 ∧
    s.machine = machineOf [log 1, log 2] := by
  obtain ⟨f, hrun, s, hup, happlied, hget⟩ := Runs.run_check (step 7) threeServers committedRun
    (fun f => ∃ s, f.hosts 1 = .up s ∧ (s.node.applied = 2 ∧ s.machine.get 5 = some 6))
    (by decide +kernel)
  obtain ⟨log, hlog⟩ := machine_equals_log threeServers_initial (by decide +kernel) hrun
  have hmachine := (hlog committedRun [] f (List.append_nil _).symm hrun 1 s hup).1
  rw [happlied] at hmachine
  exact ⟨f, s, log, hrun, hup, happlied, hget, hmachine⟩

/-- The third server answers its first message, and is sent the snapshot. -/
def laggingRun : List Event :=
  schedule 7 threeServers (committedMoves ++ [.deliver 7, .deliver 18, .deliver 19])

/-- The third server has applied what the first one has, and its machine is another. -/
theorem overtaken_machine_stays_empty : ∃ f,
    Runs.run (step 7) threeServers laggingRun = some f ∧
    ¬ ∃ log : Nat → Entry, ∀ id s, f.hosts id = .up s →
      s.machine = machineOf ((List.range' 1 s.node.applied).map log) := by
  obtain ⟨f, hrun, ⟨s₁, hup₁, happlied₁, hget₁⟩, s₃, hup₃, happlied₃, hget₃⟩ :=
    Runs.run_check (step 7) threeServers laggingRun
      (fun f => (∃ s, f.hosts 1 = .up s ∧ (s.node.applied = 2 ∧ s.machine.get 5 = some 6)) ∧
        ∃ s, f.hosts 3 = .up s ∧ (s.node.applied = 2 ∧ s.machine.get 5 = none)) (by decide +kernel)
  refine ⟨f, hrun, ?_⟩
  rintro ⟨log, hlog⟩
  have h₁ := hlog 1 s₁ hup₁
  have h₃ := hlog 3 s₃ hup₃
  rw [happlied₁] at h₁
  rw [happlied₃, ← h₁] at h₃
  rw [h₃, hget₁] at hget₃
  cases hget₃

end Fleet

end Promtact
