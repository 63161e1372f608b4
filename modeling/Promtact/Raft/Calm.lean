import Promtact.Raft.Emission
import Promtact.Raft.Ledger
import Promtact.Raft.Safety

/-!
# No operation panics

With fixed voters and stores that never fail, every node of a cluster is running:
its indexes are in order, and none of the accesses that panic is out of range.
The last panic is the one of a full outbound queue. It does not happen when the
queue is empty at the start of each operation, since no operation fills it
(`emits_exec`). Rebuilding a node from its store does not panic either.

`index_sanity` is the result.
-/

namespace Promtact.Raft

open QuorumLog GhostState
open Function (update)
open Node (indexes)

variable {σ : Type}

/-! ## Calm clusters -/

theorem emits_recovers {prog : NodeM σ Unit} {s₀ : Node σ} (hr : Recovers prog s₀) :
    Emits 0 prog := by
  rcases hr.1 with rfl | ⟨hard, snapshot, suffix, rfl⟩
  · exact emits_restore
  · exact emits_restoreSnapshot hard snapshot suffix

variable [LawfulStore σ] {K : Setting σ} {n : Nat} {h h' : History Nat Entry} {s s' : Node σ}
variable {c c' : Cluster σ} {voters : Word}

/-- The setting of the result: fixed voters, and stores that never fail. -/
def calmSetting (hrel : Reliable σ False) (voters : Word) : Setting σ where
  voters := voters
  reconf := False
  orderly := False
  Image _ _ := True
  fresh := False
  started _ _ := none
  reliable := True
  reliable_store _ := hrel
  reliable_orderly _ := False.elim
  fresh_fixed := fixed_of_never
  calm := True
  calm_reliable _ := trivial
  calm_fixed _ := id

/-- The event keeps the voters, names node IDs only, and finds the outbound queue of
its node empty. -/
def Cluster.Calm (c : Cluster σ) : Event → Prop
  | .op _ (.proposeJoint _) => False
  | .op _ .drain => True
  | .op id (.transferLeadership target) =>
    (0 < target ∧ target ≤ 64) ∧ ∀ s, c.procs id = .up s → s.outbound = []
  | .op id _ => ∀ s, c.procs id = .up s → s.outbound = []
  | .restart .. => True

instance (c : Cluster σ) (ev : Event) : Decidable (c.Calm ev) := by
  unfold Cluster.Calm
  split <;> infer_instance

omit [LawfulStore σ] in
theorem Cluster.Calm.empty {id : Nat} {op : Op} (hcalm : c.Calm (.op id op)) (hop : op ≠ .drain)
    (hup : c.procs id = .up s) : s.outbound = [] := by
  cases op with
  | proposeJoint ids => exact hcalm.elim
  | drain => exact absurd rfl hop
  | transferLeadership target => exact hcalm.2 s hup
  | _ => exact hcalm s hup

theorem Cluster.Calm.safe {hrel : Reliable σ False} {ev : Event} (hcalm : c.Calm ev) :
    EventSafe (calmSetting hrel voters) c h ev := by
  cases ev with
  | restart id peers timeout => exact False.elim
  | op id op =>
    cases op with
    | step m => exact fun _ _ => ⟨False.elim, False.elim, False.elim, False.elim, fun _ _ _ _ _ _ _ => trivial⟩
    | proposeJoint ids => exact hcalm.elim
    | propose command => exact fun _ _ _ => trivial
    | proposeRequest operation clientID requestID key value => exact fun _ _ _ => trivial
    | startReadIndex context => exact False.elim
    | transferLeadership target => exact fun _ => hcalm.1
    | compact index state =>
      exact fun s _ _ _ => { image := fun _ _ _ => trivial, own := fun _ _ _ => trivial
                             plain := False.elim }
    | _ => trivial

/-- Nothing has panicked, and nothing will at the next operation. -/
structure CalmInv (hrel : Reliable σ False) (voters : Word) (c : Cluster σ)
    (h : History Nat Entry) : Prop where
  sim : Sim (calmSetting hrel voters) c h
  up : ∀ id s, c.procs id ≠ .down s
  tame : ∀ id s, c.procs id = .up s → Tame s

/-- A program that starts with few messages does not panic. -/
theorem ok_of_emits {α : Type} {f : NodeM σ α} {Q : α → Hist K → Node σ → Prop} {g : Hist K}
    {k : Nat} (hk : K.calm) (hw : NWp K n f Q g s) (he : Emits k f) (hs : Tame s)
    (hroom : s.outbound.length + k < outboundCapacity) : ∃ a s', f s = .ok a s' ∧ Tame s' := by
  have hcount := he s hs
  cases hrun : f s with
  | ok a s' =>
    rw [hrun] at hcount
    exact ⟨a, s', rfl, hcount.1⟩
  | error e s' =>
    rw [hrun] at hcount
    obtain ⟨g', _, _, hfull⟩ := hw.elim_error hrun
    have := hfull hk
    replace hcount : s'.outbound.length ≤ s.outbound.length + k := hcount
    omega

theorem drain_ok (s : Node σ) : ∃ output s', Op.exec .drain s = .ok output s' ∧
    s' = { s with outbound := [] } := ⟨_, _, rfl, rfl⟩

variable {hrel : Reliable σ False}

theorem CalmInv.exec (hinv : CalmInv hrel voters c h) {id : Nat} {op : Op}
    (hcalm : c.Calm (.op id op)) (hup : c.procs id = .up s) (hdel : c.Deliverable id op) :
    ∃ output s', op.exec s = .ok output s' ∧ Tame s' := by
  have htame := hinv.tame id s hup
  by_cases hop : op = .drain
  · subst hop
    obtain ⟨output, s', hrun, rfl⟩ := drain_ok s
    exact ⟨output, _, hrun, htame⟩
  · have hgood : Good (calmSetting hrel voters) id h s := by
      have := hinv.sim.procs id
      rwa [hup] at this
    refine ok_of_emits trivial (wp_exec (g := ⟨h, hinv.sim.sane⟩) hgood
      (hinv.sim.opSafe hup hdel hcalm.safe)) (emits_exec op) htame ?_
    rw [hcalm.empty hop hup]
    decide

/-- Opening a store and rebuilding its node does not panic. -/
theorem CalmInv.recover (hinv : CalmInv hrel voters c h) {id : Nat} {peers : List Nat}
    (timeout : Nat) {store : σ} {recovery : Recovery} (hup : (c.procs id).node? = some s)
    (hv : initialVoters id peers = .ok voters)
    (hopen : OpenStore.reopen s.store = some (store, recovery)) :
    ∃ s', Raft.recover id peers timeout store recovery = .ok s' ∧ Tame s' := by
  obtain ⟨hst, rfl⟩ := LawfulStore.reopen_settles s.store store recovery hopen
  have hd := ProcInv.down hinv.sim.sane (hinv.sim.procs id) hup
  obtain ⟨h₁, hs₁, _, hd₁, hbase, _⟩ := hd.dur.settle hinv.sim.sane
  rw [← hst] at hd₁ hbase
  obtain ⟨prog, s₀, hprog, hpeers, heq, hw⟩ := recover_wp timeout hs₁ hv hd₁ hbase False.elim
  have htame : Tame s₀ := tame_of_initialVoters id (by rw [hpeers]; exact hv)
  obtain ⟨_, s', hrun, htame'⟩ := ok_of_emits trivial hw (emits_recovers hprog) htame
    (by rw [hprog.2]; decide)
  refine ⟨s', ?_, htame'⟩
  rw [heq]
  unfold built
  rw [hrun]

theorem CalmInv.step (hinv : CalmInv hrel voters c h) {ev : Event} (hcalm : c.Calm ev)
    (hstep : c.step voters ev = some c') : ∃ h', CalmInv hrel voters c' h' := by
  obtain ⟨h', hsim', _⟩ := hinv.sim.step hcalm.safe hstep
  -- the process of the event is running and tame
  suffices hproc : ∃ id s', c'.procs = update c.procs id (.up s') ∧ Tame s' by
    obtain ⟨id, s', hprocs, htame⟩ := hproc
    refine ⟨h', hsim', fun id' t => ?_, fun id' t hup => ?_⟩
    · rw [hprocs]
      by_cases hid : id' = id
      · subst hid
        simp
      · rw [Function.update_of_ne hid]
        exact hinv.up id' t
    · rw [hprocs] at hup
      by_cases hid : id' = id
      · subst hid
        rw [Function.update_self] at hup
        cases hup
        exact htame
      · rw [Function.update_of_ne hid] at hup
        exact hinv.tame id' t hup
  cases ev with
  | op id op =>
    obtain ⟨s, hup, hdel, rfl⟩ := Cluster.step_op.mp hstep
    obtain ⟨output, s', hrun, htame⟩ := hinv.exec hcalm hup hdel
    refine ⟨id, s', ?_, htame⟩
    unfold Cluster.execOp
    rw [hrun]
  | restart id peers timeout =>
    obtain ⟨s, store, recovery, s', hs, hv, hopen, hrec, rfl⟩ := Cluster.step_restart.mp hstep
    obtain ⟨s₁, hrec₁, htame⟩ := hinv.recover timeout hs (Cluster.eq_ok_of_toOption hv) hopen
    rw [hrec] at hrec₁
    cases hrec₁
    exact ⟨id, s', rfl, htame⟩

theorem CalmInv.run {events : List Event} (hinv : CalmInv hrel voters c h)
    (hcalm : c.Always voters Cluster.Calm events) (hrun : c.run voters events = some c') :
    ∃ h', CalmInv hrel voters c' h' := by
  induction events generalizing c h with
  | nil =>
    cases hrun
    exact ⟨h, hinv⟩
  | cons ev events ih =>
    obtain ⟨c₁, hstep, hrest⟩ := Cluster.run_cons hrun
    obtain ⟨h₁, hinv₁⟩ := hinv.step hcalm.1 hstep
    exact ih hinv₁ (hcalm.2 c₁ hstep) hrest

theorem Cluster.Initial.calm (hrel : Reliable σ False) (hinit : c.Initial voters) :
    CalmInv hrel voters c History.empty := by
  refine ⟨hinit.sim (K := calmSetting hrel voters) fun _ _ => rfl, fun id s hdown => ?_,
    fun id s hup => ?_⟩
  · rcases hinit.procs id with hno | ⟨_, _, _, _, _, _, _, hup⟩
    · rw [hno] at hdown
      cases hdown
    · rw [hup] at hdown
      cases hdown
  · rcases hinit.procs id with hno | ⟨peers, timeout, store, s₀, hnew, _, _, hup₀⟩
    · rw [hno] at hup
      cases hup
    · rw [hup₀] at hup
      cases hup
      obtain ⟨v, hv, hnew⟩ := bind_eq_ok.mp hnew
      cases hnew
      exact tame_of_initialVoters id hv

/-! ## Index sanity -/

/-- The log is there, the indexes are in order, and the base has its term. -/
structure Node.IndexSane (s : Node σ) : Prop where
  log_ne_nil : s.log ≠ []
  base_le : s.baseIndex ≤ s.applied
  applied_le : s.applied ≤ s.commit
  commit_le : s.commit ≤ s.lastIndex
  base_term : s.termAt s.baseIndex = some s.baseTerm

theorem LiveAt.indexSane {M : Mode} {j : Nat} (hs : Sane K h) (hl : LiveAt K n M j h s) :
    s.IndexSane := by
  have hview := hl.logged.view
  refine ⟨?_, hl.logged.base_le, hl.logged.applied_le, ?_, ?_⟩
  · obtain ⟨_, e, _, hlog⟩ := hview
    rw [hlog]
    exact List.cons_ne_nil _ _
  · rw [hview.lastIndex, ← hl.logged.commit_eq]
    exact hs.valid.commit_le n
  · rw [hview.termAt (Nat.le_refl _) hview.1, hl.logged.baseTerm_eq]

/-- With fixed voters and a store that never fails, the indexes of every node are in
order, no operation of a run panics, and neither does a restart. The outbound queue of a
node is drained before its next operation, and leadership is transferred to IDs from 1 to
64 only. -/
theorem index_sanity (hrel : Reliable σ False) {c₀ c : Cluster σ} {events : List Event}
    (hinit : c₀.Initial voters) (hcalm : c₀.Always voters Cluster.Calm events)
    (hrun : c₀.run voters events = some c) :
    (∀ id s, c.procs id = .up s → s.IndexSane) ∧ (∀ id s, c.procs id ≠ .down s) ∧
      ∀ id s peers timeout store recovery, c.procs id = .up s →
        initialVoters id peers = .ok voters → OpenStore.reopen s.store = some (store, recovery) →
        ∃ s', recover id peers timeout store recovery = .ok s' := by
  obtain ⟨h, hinv⟩ := (hinit.calm hrel).run hcalm hrun
  refine ⟨fun id s hup => ?_, hinv.up, fun id s peers timeout store recovery hup hv hopen => ?_⟩
  · have hgood : Good (calmSetting hrel voters) id h s := by
      have := hinv.sim.procs id
      rwa [hup] at this
    rcases hgood with hl | hd
    · exact LiveAt.indexSane hinv.sim.sane hl
    · exact absurd trivial hd.unreliable
  · obtain ⟨s', hrec, _⟩ := hinv.recover timeout (by rw [hup]; rfl) hv hopen
    exact ⟨s', hrec⟩

/-! Node 1 is elected by node 2 and commits, applies and compacts its first entry.
Node 3 takes over the snapshot, and node 2 restarts. -/

def ledgers : Cluster (Ledger false) := .start [1, 2, 3] (fun id => id) {}

def catchUpRun : List Event :=
  ledgers.schedule 7 [.act 1 .tick, .deliver 0, .deliver 2, .deliver 3, .deliver 5, .deliver 6,
    .deliver 8, .deliver 9, .deliver 10, .act 1 .applyEntries, .act 1 (.compact 1 [7]), .deliver 7,
    .deliver 13, .deliver 14, .restart 2 [1, 3] 2]

theorem ledger_reliable : Reliable (Ledger false) False := by
  simpa using (Ledger.reliable : Reliable (Ledger false) (false = true))

theorem index_sanity_catchUpRun : ∃ (c : Cluster (Ledger false)) (s : Node (Ledger false)),
    ledgers.run 7 catchUpRun = some c ∧ c.procs 3 = .up s ∧
    (s.baseIndex, s.applied, s.commit, s.baseTerm) = (1, 1, 1, 1) ∧ s.IndexSane := by
  obtain ⟨c, _, hc, _, s, hup, hs⟩ := ledgers.run_check 7 catchUpRun [] (fun c _ =>
    ∃ s, c.procs 3 = .up s ∧ (s.baseIndex, s.applied, s.commit, s.baseTerm) = (1, 1, 1, 1))
    (by decide +kernel)
  exact ⟨c, s, hc, hup, hs, (index_sanity ledger_reliable
    (Cluster.start_initial rfl (by decide)) (by decide +kernel) hc).1 3 s hup⟩

end Promtact.Raft
