import Promtact.Raft.Process
import Promtact.Raft.Safety

/-!
# Changes of voters at one node

Two facts about a node that changes its voters, for every run of its process, with any
messages and any store.

* The pending index is the one of the last change of voters behind the commit index.
  Two paths leave a stale one behind: a proposal that the node commits by itself, since
  the index is noted after the commit (`loneRun`), and a snapshot that replaces the
  pending change.
* Every voter is a peer, once. Taking over a snapshot sets the voters without adding
  peers (`transitionRun`).
-/

namespace Promtact.Raft

open Node (indexes)

variable {σ : Type} {s : Node σ} {m : Message}

/-! ## The pending change -/

namespace Node

/-- An append that the node takes replaces no entry at or below the commit index. -/
def KeepsCommitted (s : Node σ) (m : Message) : Prop :=
  m.type = .append → s.term ≤ m.term → s.termAt m.logIndex = some m.logTerm →
    m.hasEntry = true → m.logIndex + 1 ≤ s.commit → s.termAt (m.logIndex + 1) = some m.entry.term

instance (s : Node σ) (m : Message) : Decidable (s.KeepsCommitted m) := by
  unfold KeepsCommitted
  infer_instance

/-- A snapshot from behind the commit index that the node takes over ends in an entry of
its log. -/
def HoldsCommitted (s : Node σ) (m : Message) : Prop :=
  m.type = .installSnapshot → s.term ≤ m.term → m.snapshotOld ≠ 0 →
    s.baseIndex < m.snapshotIndex → m.snapshotIndex < s.commit →
    s.termAt m.snapshotIndex = some m.snapshotTerm

instance (s : Node σ) (m : Message) : Decidable (s.HoldsCommitted m) := by
  unfold HoldsCommitted
  infer_instance

/-- A snapshot that the node takes over leaves the pending change in the log, if there is
one. -/
def KeepsPendingEntry (s : Node σ) (m : Message) : Prop :=
  m.type = .installSnapshot → s.term ≤ m.term → m.snapshotOld ≠ 0 →
    s.baseIndex < m.snapshotIndex → s.pendingConfig = 0 ∨
    (s.termAt m.snapshotIndex = some m.snapshotTerm ∧ m.snapshotIndex < s.pendingConfig)

instance (s : Node σ) (m : Message) : Decidable (s.KeepsPendingEntry m) := by
  unfold KeepsPendingEntry
  infer_instance

/-- The operations that keep the pending index in line with the log. A change that the
node proposes is not one that it commits by itself. -/
def KeepsPending (s : Node σ) : Op → Prop
  | .step m => s.KeepsCommitted m ∧ s.HoldsCommitted m ∧ s.KeepsPendingEntry m
  | .proposeJoint ids => s.state = .leader → s.votersNew = 0 → s.pendingConfig = 0 →
      match voterMask ids with
      | .ok (some mask) => s.commitsAlone (s.jointEntry mask) = false
      | _ => True
  | .proposeFinal => s.state = .leader → s.votersNew ≠ 0 → s.pendingConfig = 0 →
      s.commitsAlone s.finalEntry = false
  | _ => True

instance (s : Node σ) (op : Op) : Decidable (s.KeepsPending op) := by
  unfold KeepsPending
  split
  · infer_instance
  · have (ids : List Nat) : Decidable (match voterMask ids with
        | .ok (some mask) => s.commitsAlone (s.jointEntry mask) = false
        | _ => True) := by
      split <;> infer_instance
    infer_instance
  · infer_instance
  · infer_instance

end Node

/-- The pending index, and the order of the indexes that it rests on. -/
def pendingWatch : Watch where
  settled := True
  pend := True
  pend_settled _ := trivial

theorem Node.KeepsPending.opLocal {op : Op} (h : s.KeepsPending op) : OpLocal pendingWatch s op := by
  cases op with
  | step m =>
    obtain ⟨happend, hheld, hpending⟩ := h
    exact fun _ => {
      append := fun _ => happend
      snapshot := fun htype hterm hold hlt => {
        held := fun _ => hheld htype hterm hold hlt
        pending := fun _ => hpending htype hterm hold hlt
        known := False.elim
        kept := fun _ _ => False.elim }
      cut := fun _ _ _ _ _ _ _ _ _ => False.elim
      sender := False.elim }
  | proposeJoint ids =>
    refine ⟨False.elim, fun _ hstate hnew hzero mask hmask => ?_⟩
    have := h hstate hnew hzero
    rwa [hmask] at this
  | proposeFinal => exact fun _ => h
  | transferLeadership target => exact False.elim
  | applyEntries => exact fun _ _ => False.elim
  | _ => trivial

theorem Proc.Meets.mono {q q' : Node σ → Op → Prop} {p : Proc σ} {ev : Proc.Event}
    (h : p.Meets q ev) (himp : ∀ s op, q s op → q' s op) : p.Meets q' ev := by
  cases ev with
  | op op => exact fun s hs hf => himp s op (h s hs hf)
  | restart peers timeout => trivial

variable [OpenStore σ] {id timeout : Nat} {peers : List Nat} {store : σ} {n : Node σ}
variable {events : List Proc.Event}

/-- The pending index is that of the last change of voters above the commit index, and zero
when there is none, as long as the steps keep to the following. No append that the node
takes replaces an entry at or below Commit, a snapshot that it takes over with a last index
below Commit ends in an entry of its log, no snapshot takes the entry at the pending index
away, and no change is proposed that the node commits by itself at once. -/
theorem pending_of_log (hnew : newNodeWithStore id peers timeout store = .ok n)
    (hkeeps : Runs.Always (Proc.next id) (Proc.Meets Node.KeepsPending) (.up n) events)
    (hrun : Runs.run (Proc.next id) (.up n) events = some (.up s)) (hrunning : s.faulted = false) :
    s.Tracks s.commit s.lastIndex := by
  have hsafe : Safe pendingWatch s := Proc.run_local (fun _ _ => False.elim) hnew
    (hkeeps.mono fun p ev h => h.mono fun s op => Node.KeepsPending.opLocal) hrun
  exact (hsafe.of_running hrunning).pending trivial

/-! Node 1 is elected by node 2 and starts a transition from the voters 1, 2 and 3 to 1, 2
and 4. Node 2 has the change in its log when node 1 commits it, compacts behind it, and
sends the snapshot to node 3, which has nothing. -/

def transitionRun : List Event :=
  threeNodes.schedule 7 [.act 1 .tick, .deliver 0, .deliver 2, .deliver 3, .deliver 5, .deliver 6,
    .deliver 8, .act 1 (.proposeJoint [1, 2, 4]), .deliver 10, .deliver 13, .deliver 14,
    .deliver 18, .act 1 .applyEntries, .act 1 (.compact 2 []), .deliver 7, .deliver 22, .deliver 23]

/-- A new node of `threeNodes`. -/
def newNode (id : Nat) (peers : List Nat) : Node Disk where
  id := id
  peers := peers
  timeout := id
  votersOld := 7
  store := {}

theorem pending_of_log_transitionRun : ∃ s : Node Disk,
    Runs.run (Proc.next 2) (.up (newNode 2 [1, 3])) (transitionRun.filterMap (Event.at 2)) =
      some (.up s) ∧ (s.commit, s.lastIndex, s.pendingConfig) = (1, 2, 2) ∧
    s.Tracks s.commit s.lastIndex := by
  obtain ⟨_, hrun, s, rfl, hs, hf⟩ := Runs.run_check (Proc.next 2) (.up (newNode 2 [1, 3]))
    (transitionRun.filterMap (Event.at 2)) (fun p => ∃ s, p = .up s ∧
      (s.commit, s.lastIndex, s.pendingConfig) = (1, 2, 2) ∧ s.faulted = false) (by decide +kernel)
  have hnew : newNodeWithStore 2 [1, 3] 2 {} = .ok (newNode 2 [1, 3]) := rfl
  exact ⟨s, hrun, hs, pending_of_log hnew (by decide +kernel) hrun hf⟩

/-! A node that is the only voter is elected by itself and proposes a change. -/

def loneRun : List Proc.Event := [.op .tick, .op (.proposeJoint [1])]

def loneNode : Node Disk where
  id := 1
  peers := []
  timeout := 1
  votersOld := 1
  store := {}

/-- The change is committed when it is noted as pending. -/
theorem lone_proposal_stays_pending : ∃ s : Node Disk,
    newNodeWithStore 1 [] 1 ({} : Disk) = .ok loneNode ∧
    Runs.run (Proc.next 1) (.up loneNode) loneRun = some (.up s) ∧ s.faulted = false ∧
    ¬ s.Tracks s.commit s.lastIndex := by
  obtain ⟨_, hrun, s, rfl, hs, hf⟩ := Runs.run_check (Proc.next 1) (.up loneNode) loneRun
    (fun p => ∃ s, p = .up s ∧ (s.commit, s.pendingConfig) = (2, 2) ∧ s.faulted = false)
    (by decide +kernel)
  obtain ⟨hcommit, hpending⟩ := Prod.mk.inj hs
  refine ⟨s, rfl, hrun, hf, ?_⟩
  rintro (⟨hzero, _⟩ | ⟨hlt, _⟩) <;> omega

/-! ## Voters and peers -/

omit [OpenStore σ] in
/-- The voters in force are those from before or of a change in the log. -/
theorem overrideVoters_cases {l : List Nat} {c₀ c : Word × Word}
    (h : l.foldlM s.overrideVoters c₀ = .ok c) :
    c = c₀ ∨ ∃ e ∈ s.log, e.isConfig = true ∧ c = (e.oldVoters, e.newVoters) := by
  induction l generalizing c₀ with
  | nil =>
    cases h
    exact Or.inl rfl
  | cons i l ih =>
    rw [List.foldlM_cons] at h
    obtain ⟨c₁, h₁, h⟩ := bind_eq_ok.mp h
    obtain ⟨e, he, h₁⟩ := bind_eq_ok.mp h₁
    cases h₁
    rcases ih h with rfl | hlog
    · split
      · rename_i hkind
        exact Or.inr ⟨e, (entryAt?_inLog (entryAt_eq_ok.mp he)).2.2,
          isConfig_iff.mpr (Or.inl hkind), rfl⟩
      · exact Or.inl rfl
    · exact Or.inr hlog

instance (s : Node σ) (mask : Word) : Decidable (s.Knows mask) :=
  decidable_of_iff (∀ id ∈ indexes 1 64, mask.getLsbD (id - 1) = true → id = s.id ∨ id ∈ s.peers)
    ⟨fun h id hid => h id (mem_indexes.mpr ⟨hid.1, hid.2.1⟩) hid.2.2,
      fun h id hid hbit => h id ⟨(mem_indexes.mp hid).1, (mem_indexes.mp hid).2, hbit⟩⟩

/-- A snapshot that the node takes over names the node and peers of it only. -/
def Node.KnowsSnapshot (s : Node σ) : Op → Prop
  | .step m => m.type = .installSnapshot → s.term ≤ m.term → m.snapshotOld ≠ 0 →
      s.baseIndex < m.snapshotIndex → s.Knows (m.snapshotOld ||| m.snapshotNew)
  | _ => True

instance (s : Node σ) (op : Op) : Decidable (s.KnowsSnapshot op) := by
  unfold Node.KnowsSnapshot
  split <;> infer_instance

omit [OpenStore σ] in
theorem Node.KnowsSnapshot.opLocal {op : Op} (h : s.KnowsSnapshot op) :
    OpLocal { known := True } s op := by
  cases op with
  | step m =>
    exact fun _ => {
      append := False.elim
      snapshot := fun htype hterm hold hlt => {
        held := False.elim, pending := False.elim
        known := fun _ => h htype hterm hold hlt
        kept := fun _ _ => False.elim }
      cut := fun _ _ _ _ _ _ _ _ _ => False.elim
      sender := False.elim }
  | proposeJoint ids => exact ⟨False.elim, False.elim⟩
  | proposeFinal => exact False.elim
  | transferLeadership target => exact False.elim
  | applyEntries => exact fun _ _ => False.elim
  | _ => trivial

/-- As long as the snapshots that a node takes over name peers only, every other voter in
force is a peer, once. -/
theorem voters_are_peers (hnew : newNodeWithStore id peers timeout store = .ok n)
    (hknows : Runs.Always (Proc.next id) (Proc.Meets Node.KnowsSnapshot) (.up n) events)
    (hrun : Runs.run (Proc.next id) (.up n) events = some (.up s)) (hrunning : s.faulted = false) :
    ∃ old new, s.effectiveVoters = .ok (old, new) ∧
      ∀ voter, voter ≠ s.id → Member (old ||| new) voter → s.peers.count voter = 1 := by
  have hsafe : Safe { known := True } s := Proc.run_local (fun _ _ => False.elim) hnew
    (hknows.mono fun p ev h => h.mono fun s op => Node.KnowsSnapshot.opLocal) hrun
  have hl := hsafe.of_running hrunning
  obtain ⟨⟨old, new⟩, hvoters⟩ := effectiveVoters_ok hl.log_ne
  have hall : s.Knows (old ||| new) := by
    rcases overrideVoters_cases hvoters with hc | ⟨e, he, hconfig, hc⟩
    · cases hc
      exact hl.voters trivial
    · cases hc
      exact hl.entries trivial e he hconfig
  refine ⟨old, new, hvoters, fun voter hne hmember => ?_⟩
  exact List.count_eq_one_of_mem hl.tame.1 ((hall voter hmember).resolve_left hne)

theorem voters_are_peers_transitionRun : ∃ s : Node Disk,
    Runs.run (Proc.next 2) (.up (newNode 2 [1, 3])) (transitionRun.filterMap (Event.at 2)) =
      some (.up s) ∧ ∃ old new, s.effectiveVoters = .ok (old, new) ∧ Member (old ||| new) 4 ∧
      ∀ voter, voter ≠ s.id → Member (old ||| new) voter → s.peers.count voter = 1 := by
  obtain ⟨_, hrun, s, rfl, hs, hf⟩ := Runs.run_check (Proc.next 2) (.up (newNode 2 [1, 3]))
    (transitionRun.filterMap (Event.at 2)) (fun p => ∃ s, p = .up s ∧
      s.effectiveVoters.toOption = some (7, 11) ∧ s.faulted = false) (by decide +kernel)
  have hnew : newNodeWithStore 2 [1, 3] 2 {} = .ok (newNode 2 [1, 3]) := rfl
  obtain ⟨old, new, hvoters, hall⟩ := voters_are_peers hnew (by decide +kernel) hrun hf
  rw [hvoters] at hs
  cases hs
  exact ⟨s, hrun, 7, 11, hvoters, ⟨by decide, by decide, by decide⟩, hall⟩

/-- Node 3 takes over a snapshot of a transition and never learns of the new voter as a
peer. -/
theorem snapshot_leaves_out_peer : ∃ (c : Cluster Disk) (s : Node Disk),
    threeNodes.Initial 7 ∧ threeNodes.run 7 transitionRun = some c ∧ c.procs 3 = .up s ∧
    Runs.run (Proc.next 3) (.up (newNode 3 [1, 2])) (transitionRun.filterMap (Event.at 3)) =
      some (.up s) ∧ s.faulted = false ∧
    ∃ old new, s.effectiveVoters = .ok (old, new) ∧ 4 ≠ s.id ∧ Member (old ||| new) 4 ∧
      s.peers.count 4 = 0 := by
  obtain ⟨_, c, hnil, hrun, s, hup, hf, hvoters, hid, hcount⟩ :=
    threeNodes.run_check 7 [] transitionRun (fun _ c => ∃ s, c.procs 3 = .up s ∧
      s.faulted = false ∧ s.effectiveVoters.toOption = some (7, 11) ∧ 4 ≠ s.id ∧
      s.peers.count 4 = 0) (by decide +kernel)
  cases hnil
  have hproc := Cluster.run_proc hrun 3
  rw [hup] at hproc
  exact ⟨c, s, threeNodes_initial, hrun, hup, hproc, hf, 7, 11, Cluster.eq_ok_of_toOption hvoters,
    hid, ⟨by decide, by decide, by decide⟩, hcount⟩

end Promtact.Raft
