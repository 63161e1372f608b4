import Promtact.Raft.Membership
import Promtact.Raft.Recorder

/-!
# Fail-stop

A node that lost its store is `Stopped`. Its operations check `Faulted`, or that the node
leads, and do nothing (`after_stopped`); only `applyEntries` moves the applied index, which
is not durable.

`Compact` checks neither. A stopped node that has applied entries behind its base still
writes a snapshot and cuts its log (`stopped_node_compacts`).
-/

namespace Promtact.Raft

section Operations

variable {σ : Type} {s t : Node σ} {op : Op}

theorem finalState_applyNext (dst : List Entry) (i : Nat) (s : Node σ) :
    finalState (applyNext dst i s) = { s with applied := i } :=
  finalState_ask (s := { s with applied := i }) (·.entryAt i) _ fun _ _ => rfl

/-- Applying moves nothing but the applied index. -/
theorem finalState_applyAll (l : List Nat) (dst : List Entry) (s : Node σ) :
    ∃ applied, finalState (l.foldlM applyNext dst s) = { s with applied := applied } := by
  induction l generalizing dst s with
  | nil => exact ⟨s.applied, rfl⟩
  | cons i l ih =>
    have hnext := finalState_applyNext dst i s
    rw [List.foldlM_cons]
    show ∃ applied, finalState (EStateM.bind (applyNext dst i) _ s) = _
    unfold EStateM.bind
    cases hrun : applyNext dst i s with
    | error e s' =>
      rw [hrun] at hnext
      exact ⟨i, hnext⟩
    | ok dst' s' =>
      rw [hrun] at hnext
      replace hnext : s' = { s with applied := i } := hnext
      obtain ⟨applied, h⟩ := ih dst' s'
      exact ⟨applied, h.trans (by rw [hnext])⟩

/-- What a stopped node keeps. -/
structure Halted (s t : Node σ) : Prop where
  faulted : t.faulted = true
  leads : t.state ≠ .leader
  store : t.store = s.store
  term : t.term = s.term
  votedFor : t.votedFor = s.votedFor
  log : t.log = s.log
  baseIndex : t.baseIndex = s.baseIndex
  commit : t.commit = s.commit
  snapshot : t.snapshot = s.snapshot
  drained : drain t = .ok [] t

theorem Node.Stopped.halted (hs : s.Stopped) (applied : Nat) :
    Halted s { s with applied := applied } where
  faulted := hs.faulted
  leads := by
    show s.state ≠ .leader
    rw [hs.follows]
    exact State.noConfusion
  store := rfl
  term := rfl
  votedFor := rfl
  log := rfl
  baseIndex := rfl
  commit := rfl
  snapshot := rfl
  drained := by
    show EStateM.Result.ok s.outbound { s with applied := applied, outbound := [] } = _
    rw [hs.silent, ← hs.silent]

variable [StableStore σ]

/-- The node behind an operation, whether that returns or panics. -/
def Node.after (s : Node σ) (op : Op) : Node σ := finalState (op.exec s)

/-- The operation is a compaction that passes the checks of `Compact`. -/
def Node.Publishes (s : Node σ) : Op → Prop
  | .compact index _ => s.baseIndex < index ∧ index ≤ s.applied ∧ s.termAt index ≠ none
  | _ => False

instance (s : Node σ) (op : Op) : Decidable (s.Publishes op) :=
  match op with
  | .compact index _ =>
    inferInstanceAs (Decidable (s.baseIndex < index ∧ index ≤ s.applied ∧ s.termAt index ≠ none))
  | .tick | .step _ | .propose _ | .proposeRequest .. | .proposeJoint _ | .proposeFinal
  | .transferLeadership _ | .startReadIndex _ | .applyEntries | .drain => isFalse id

/-- A stopped node only moves its applied index. -/
theorem after_stopped (hs : s.Stopped) (hop : ¬ s.Publishes op) :
    ∃ applied, s.after op = { s with applied := applied } := by
  have hsame : s.after op = s → ∃ applied, s.after op = { s with applied := applied } :=
    fun h => ⟨s.applied, h⟩
  have hrefused : op.ForLeader → ∃ applied, s.after op = { s with applied := applied } :=
    fun hop => hsame (exec_refused hop (by rw [hs.follows]; exact State.noConfusion))
  cases op with
  | tick =>
    refine hsame ((finalState_map tick (fun _ => Output.nothing) s).trans ?_)
    show finalState ((if s.faulted then pure () else _ : NodeM σ Unit) s) = s
    rw [if_pos hs.faulted]
    rfl
  | step m =>
    refine hsame ((finalState_map (step m) (fun _ => Output.nothing) s).trans ?_)
    show finalState ((if s.faulted then pure () else _ : NodeM σ Unit) s) = s
    rw [if_pos hs.faulted]
    rfl
  | applyEntries =>
    obtain ⟨applied, h⟩ := finalState_applyAll (Node.indexes (s.applied + 1) s.commit) [] s
    exact ⟨applied, (finalState_map applyEntries Output.entries s).trans h⟩
  | compact index state =>
    refine hsame ((finalState_map _ Output.accepted s).trans ?_)
    show finalState ((if index ≤ s.baseIndex || index > s.applied then pure false else _ :
      NodeM σ Bool) s) = s
    split
    · rfl
    rename_i hin
    cases hterm : s.termAt index with
    | none => rfl
    | some term =>
      simp only [Bool.or_eq_true, decide_eq_true_eq, not_or] at hin
      exact absurd ⟨by omega, by omega, by simp [hterm]⟩ hop
  | drain =>
    refine hsame ?_
    show { s with outbound := [] } = s
    rw [← hs.silent]
  | _ => exact hrefused trivial

/-- A stopped node through any operations. -/
theorem run_stopped {ops : List Op} (hs : s.Stopped)
    (hquiet : Runs.Always (fun s op => some (s.after op)) (fun s op => ¬ s.Publishes op) s ops) :
    ∃ applied, Runs.run (fun s op => some (s.after op)) s ops = some { s with applied := applied } := by
  induction ops generalizing s with
  | nil => exact ⟨s.applied, rfl⟩
  | cons op ops ih =>
    obtain ⟨applied, hafter⟩ := after_stopped hs hquiet.1
    have hs' : (s.after op).Stopped := by
      rw [hafter]
      exact { hs with }
    obtain ⟨applied', hrun⟩ := ih hs' (hquiet.2 _ rfl)
    refine ⟨applied', Runs.run_cons.mpr ⟨_, rfl, hrun.trans ?_⟩⟩
    rw [hafter]

end Operations

/-- A node becomes faulted in a run of its process. Whatever is asked of it afterwards, it
stays faulted, never leads, makes no call to its store, keeps what it holds and sends nothing,
as long as it is not asked to compact entries it has applied. -/
theorem fail_stop_is_absorbing {σ : Type} [OpenStore σ] {id timeout : Nat} {peers : List Nat}
    {store : Recorder σ} {n s : Node (Recorder σ)} {events : List Proc.Event} {ops : List Op}
    (hnew : newNodeWithStore id peers timeout store = .ok n)
    (hrun : Runs.run (Proc.next id) (.up n) events = some (.up s)) (hfaulted : s.faulted = true)
    (hquiet : Runs.Always (fun s op => some (s.after op)) (fun s op => ¬ s.Publishes op) s ops) :
    ∃ t, Runs.run (fun s op => some (s.after op)) s ops = some t ∧ Halted s t := by
  have hs : s.Stopped := (Proc.run_free hnew hrun).resolve_right fun hl =>
    Bool.false_ne_true (hl.running.symm.trans hfaulted)
  obtain ⟨applied, hrun'⟩ := run_stopped hs hquiet
  exact ⟨_, hrun', hs.halted applied⟩

/-! A node that is the only voter is elected by itself and applies the entry of its election.
Its disk refuses the first entry that it is asked to store afterwards. -/

def fullDisk : Recorder Disk := { store := { script := [.done, .done, .done, .lost] } }

def stoppingNode : Node (Recorder Disk) where
  id := 1
  peers := []
  timeout := 1
  votersOld := 1
  store := fullDisk

def stoppingRun : List Proc.Event := [.op .tick, .op .applyEntries, .op (.propose 0)]

/-- Everything that is left to do on the node is refused. -/
theorem fail_stop_is_absorbing_stoppingNode : ∃ s t : Node (Recorder Disk),
    Runs.run (Proc.next 1) (.up stoppingNode) stoppingRun = some (.up s) ∧ s.faulted = true ∧
    Runs.run (fun s op => some (s.after op)) s
      [.tick, .propose 7, .compact 2 [], .startReadIndex 1, .drain] = some t ∧ Halted s t := by
  obtain ⟨_, hrun, s, rfl, hfaulted, hquiet⟩ := Runs.run_check (Proc.next 1) (.up stoppingNode)
    stoppingRun (fun p => ∃ s, p = .up s ∧ s.faulted = true ∧
      Runs.Always (fun s op => some (s.after op)) (fun s op => ¬ s.Publishes op) s
        [.tick, .propose 7, .compact 2 [], .startReadIndex 1, .drain]) (by decide +kernel)
  have hnew : newNodeWithStore 1 [] 1 fullDisk = .ok stoppingNode := rfl
  obtain ⟨t, hrun', hhalted⟩ := fail_stop_is_absorbing hnew hrun hfaulted hquiet
  exact ⟨s, t, hrun, hfaulted, hrun', hhalted⟩

/-- The stopped node compacts: it writes a snapshot, and its log and its base change. -/
theorem stopped_node_compacts : ∃ s : Node (Recorder Disk),
    newNodeWithStore 1 [] 1 fullDisk = .ok stoppingNode ∧
    Runs.run (Proc.next 1) (.up stoppingNode) stoppingRun = some (.up s) ∧ s.faulted = true ∧
    ((s.after (.compact 1 [])).store.calls.length, (s.after (.compact 1 [])).baseIndex,
      (s.after (.compact 1 [])).log.length) = (s.store.calls.length + 2, 1, 1) ∧
    (s.baseIndex, s.log.length) = (0, 2) ∧ ¬ Halted s (s.after (.compact 1 [])) := by
  obtain ⟨_, hrun, s, rfl, hfaulted, hafter, hbefore⟩ := Runs.run_check (Proc.next 1)
    (.up stoppingNode) stoppingRun (fun p => ∃ s, p = .up s ∧ s.faulted = true ∧
      ((s.after (.compact 1 [])).store.calls.length, (s.after (.compact 1 [])).baseIndex,
        (s.after (.compact 1 [])).log.length) = (s.store.calls.length + 2, 1, 1) ∧
      (s.baseIndex, s.log.length) = (0, 2)) (by decide +kernel)
  refine ⟨s, rfl, hrun, hfaulted, hafter, hbefore, fun hhalted => ?_⟩
  have hcalls := (Prod.mk.inj hafter).1
  rw [hhalted.store] at hcalls
  omega

end Promtact.Raft
