import Promtact.Raft.Configuration
import Promtact.Raft.Process

/-!
# A snapshot carries the voters of its index

A compaction stores the voters that the node has, which are those of its commit index.
They are the voters of the snapshot's index when no change of voters is committed behind
it. Then the node is rebuilt from the snapshot and the rest of its log, and a follower
that takes over the snapshot accepts what comes next. Otherwise the snapshot and the log
behind it both make the change, and the node refuses its own log when it restarts
(`stopsAfterCompact`).
-/

namespace Promtact.Raft

open QuorumLog GhostState
open Node (indexes)

variable {σ : Type} {s s' t u : Node σ} {m : Message} {index : Nat} {state : List UInt8}

/-! ## Following a snapshot -/

/-- An entry that fits the voters is accepted by a node that has them and no pending
change. -/
theorem Fits.valid {c : Word × Word} {e : Entry} (hfit : Fits c e)
    (hvoters : (u.votersOld, u.votersNew) = c) (hpending : u.pendingConfig = 0) :
    u.validNewEntry e = true := by
  subst hvoters
  unfold Fits at hfit
  unfold Node.validNewEntry
  cases hkind : e.kind with
  | normal =>
    simp only [hkind, Bool.and_eq_true, Bool.or_eq_true, decide_eq_true_eq] at hfit ⊢
    obtain ⟨hold, hnew, hop⟩ := hfit
    exact ⟨⟨hold, hnew⟩, hop.imp_right fun h => ⟨⟨h.1, h.2.1⟩, h.2.2⟩⟩
  | noop =>
    simp only [hkind, Bool.and_eq_true, decide_eq_true_eq] at hfit ⊢
    obtain ⟨hcommand, hold, hnew, hop⟩ := hfit
    exact ⟨⟨⟨hcommand, hold⟩, hnew⟩, hop⟩
  | jointConfig =>
    simp only [hkind, Bool.and_eq_true, decide_eq_true_eq] at hfit ⊢
    obtain ⟨hnew, hold, hne, hne'⟩ := hfit
    exact ⟨⟨⟨⟨hpending, hnew⟩, hold⟩, hne⟩, hne'⟩
  | finalConfig =>
    simp only [hkind, Bool.and_eq_true, decide_eq_true_eq] at hfit ⊢
    obtain ⟨hnew, hold, hzero⟩ := hfit
    exact ⟨⟨⟨hpending, hnew⟩, hold⟩, hzero⟩
  | other c =>
    rw [hkind] at hfit
    exact hfit.elim

/-- A follower that takes over a snapshot has its voters, and no other pending change. -/
theorem voters_of_installed [StableStore σ] (hrunning : t.faulted = false) (htype : m.type = .installSnapshot)
    (hterm : t.term ≤ m.term) (hold : m.snapshotOld ≠ 0) (hlt : t.baseIndex < m.snapshotIndex)
    (hstep : step m t = .ok () u) (hu : u.faulted = false) :
    (u.votersOld, u.votersNew) = (m.snapshotOld, m.snapshotNew) ∧
      u.pendingConfig = t.pendingConfig := by
  suffices hw : LWp {} (step m) (fun _ u => u.faulted = true ∨
      (u.votersOld, u.votersNew) = (m.snapshotOld, m.snapshotNew) ∧
        u.pendingConfig = t.pendingConfig) t from
    (hw.elim hstep).resolve_left (by rw [hu]; exact Bool.false_ne_true)
  refine LWp.bind (LWp.of_get (LWp.ite (fun h => by rw [hrunning] at h; cases h) fun _ => ?_))
  refine LWp.bind (lwp_adoptTerm (fun t₁ hcore hadopts => ?_) fun s' hs' =>
    LWp.of_pure (Or.inl hs'.faulted))
  have hbase : t₁.baseIndex = t.baseIndex := congrArg (·.2.2.2.1) hcore
  have hpending : t₁.pendingConfig = t.pendingConfig := congrArg (·.2.2.2.2.2.2.2.2.1) hcore
  have hterm₁ : t₁.term ≤ m.term := by
    rcases hadopts with ⟨rfl, _⟩ | ⟨_, _, _, heq⟩
    · exact hterm
    · exact Nat.le_of_eq heq
  simp only [htype]
  refine LWp.bind (LWp.of_get (LWp.ite (fun hreject => ?_) fun _ => ?_))
  · simp only [Node.rejectsSnapshot, Bool.or_eq_true, Bool.and_eq_true, decide_eq_true_eq] at hreject
    rcases hreject with ((h | h) | h) | h
    · omega
    · omega
    · exact absurd h hold
    · omega
  refine LWp.bind (LWp.bind (LWp.of_get (LWp.ite (fun h => by omega) fun _ => ?_)))
  refine LWp.bind (lwp_saveAndCompact (fun store => ?_) fun s' hs' =>
    LWp.of_pure (LWp.of_pure (Or.inl hs'.faulted)))
  refine LWp.bind (LWp.of_modify (LWp.of_pure (LWp.bind (LWp.of_modify (LWp.bind (LWp.of_get
    (lwp_send fun u hsends => Or.inr ?_)))))))
  obtain ⟨_, _, rfl⟩ := hsends
  exact ⟨rfl, hpending⟩

/-! ## Compacting -/

variable [LawfulStore σ] {voters : Word}

/-- Saving a snapshot and cutting the log, when both succeed. -/
theorem lwp_saveAndCompact_saved {W : Watch} {snapshot : Snapshot}
    (hbase : (LawfulStore.durable s.store).base ≤ (LawfulStore.durable s.store).snapshot.lastIndex) :
    LWp W (saveAndCompact snapshot) (fun ok s' => ok = true →
      ∃ store, s' = { s with store := store } ∧ (LawfulStore.durable store).snapshot = snapshot) s := by
  unfold saveAndCompact
  cases hstore : StableStore.snapshots (σ := σ) with
  | none => exact LWp.bind (LWp.of_modify (LWp.of_pure (nomatch ·)))
  | some store =>
    refine LWp.bind ?_
    cases hsave : (store.saveSnapshot snapshot s.store).1 with
    | some err => exact LWp.of_ok (tryStore_error hsave) (LWp.of_pure (nomatch ·))
    | none =>
      refine LWp.of_ok (tryStore_ok hsave) ?_
      have hsaved := (LawfulStore.saveSnapshot_atomic store hstore snapshot s.store).1 hsave
      have hge : (LawfulStore.durable s.store).snapshot.lastIndex ≤ snapshot.lastIndex :=
        Nat.le_of_not_lt fun hlt =>
          (LawfulStore.saveSnapshot_refuses store hstore snapshot s.store hlt).1 hsave
      generalize (store.saveSnapshot snapshot s.store).2 = a at hsaved ⊢
      have hcut := LawfulStore.compactLog_atomic store hstore a
        (by rw [hsaved]; exact Nat.le_trans hbase hge)
      rw [show (LawfulStore.durable a).snapshot.lastIndex = snapshot.lastIndex by rw [hsaved]; rfl]
        at hcut
      show LWp W (tryStore (store.compactLog snapshot.lastIndex)) _ _
      cases hlog : (store.compactLog snapshot.lastIndex a).1 with
      | some err => exact LWp.of_ok (tryStore_error hlog) (nomatch ·)
      | none =>
        refine LWp.of_ok (tryStore_ok hlog) fun _ => ⟨_, rfl, ?_⟩
        rw [hcut.1 hlog, hsaved]
        rfl

/-- What a compaction that succeeds leaves behind. -/
structure Compacted (s : Node σ) (index : Nat) (s' : Node σ) : Prop where
  base : s.baseIndex < index
  applied : index ≤ s.applied
  last : s'.snapshot.lastIndex = index
  voters : (s'.snapshot.oldVoters, s'.snapshot.newVoters) = (s.votersOld, s.votersNew)
  saved : (LawfulStore.durable s'.store).snapshot = s'.snapshot

theorem compact_true
    (hbase : (LawfulStore.durable s.store).base ≤ (LawfulStore.durable s.store).snapshot.lastIndex)
    (hcompact : compact index state s = .ok true s') : Compacted s index s' := by
  refine LWp.elim (W := {}) (Q := fun ok s' => ok = true → Compacted s index s') ?_ hcompact rfl
  refine LWp.bind (LWp.of_get (LWp.ite (fun _ => LWp.of_pure (nomatch ·)) fun hno => ?_))
  simp only [Bool.or_eq_true, decide_eq_true_eq, not_or, not_le, gt_iff_lt, not_lt] at hno
  cases s.termAt index with
  | none => exact LWp.of_pure (nomatch ·)
  | some term =>
    refine LWp.bind ((lwp_saveAndCompact_saved hbase).mono fun ok s' hok => ?_)
    cases ok with
    | false => exact LWp.of_pure (nomatch ·)
    | true =>
      obtain ⟨store, rfl, hsaved⟩ := hok rfl
      exact LWp.bind (LWp.of_modify (LWp.of_pure fun _ =>
        ⟨hno.1, hno.2, rfl, rfl, hsaved⟩))

/-! ## The voters of a snapshot -/

variable {c₀ c : Cluster σ} {events : List Event} {id : Nat}

/-- A snapshot has the voters of its index, if the steps of the run and the compaction itself
keep the voters in line (`Cluster.KeepsVoters`); for the compaction this is that no joint or
final configuration stands at an index in `(index, Commit]`. The node is rebuilt from the
snapshot and the log above it, unless two changes are pending there, and a follower without
a pending change that takes it over accepts the entries above it, up to the next change. -/
theorem snapshot_voters_of_committed_log (hinit : c₀.Initial voters)
    (hkeeps : c₀.Always voters Cluster.KeepsVoters events)
    (hrun : c₀.run voters events = some c) (hup : c.procs id = .up s)
    (hcompacts : c.KeepsVoters (.op id (.compact index state)))
    (hcompact : compact index state s = .ok true s') :
    s'.snapshot.lastIndex = index ∧ (LawfulStore.durable s'.store).snapshot = s'.snapshot ∧
    (∃ entries, c₀.CommittedLog voters events index entries ∧
      configAfter voters entries = (s'.snapshot.oldVoters, s'.snapshot.newVoters)) ∧
    (∀ peers timeout store recovery, initialVoters id peers = .ok voters →
      OpenStore.reopen s'.store = some (store, recovery) →
      (LawfulStore.durable s'.store).settle.pendingConfigs.length ≤ 1 →
      ∃ n, recover id peers timeout store recovery = .ok n ∧ n.faulted = false) ∧
    ∀ (m : Message) (t u : Node σ), m.type = .installSnapshot → m.asSnapshot = s'.snapshot →
      t.faulted = false → t.term ≤ m.term → t.baseIndex < index → t.pendingConfig = 0 →
      step m t = .ok () u → u.faulted = false → ∀ j e, index < j → s.entryAt? j = some e →
      (∀ i, index < i → i < j → ¬ s.ConfigAt i) → u.validNewEntry e = true := by
  obtain ⟨h, hsim, hnow, hnode⟩ := committed_of_run hinit hkeeps hrun
  obtain ⟨x, hview, hsound, hcx, hconf, hlog⟩ := hnode id s hup
  have hgood : Good (seenSetting σ voters (c₀.Commits voters events)) id h s := by
    have := hsim.procs id
    rwa [hup] at this
  have hd := hgood.down hsim.sane
  obtain ⟨hbase, happlied, hlast, hvoters, hsaved⟩ := compact_true hd.dur.base_le hcompact
  have hindex : index ≤ s.commit := Nat.le_trans happlied (Good.applied_le hgood)
  have hconfig : configAfter voters (x.take index) =
      (s'.snapshot.oldVoters, s'.snapshot.newVoters) := by
    rw [hvoters, ← hconf]
    exact config_behind hsim.sane hsound hview (Nat.le_of_lt hbase) hindex hcx
      fun _ => hcompacts s hup hbase happlied
  refine ⟨hlast, hsaved, ⟨x.take index, hlog index hindex, hconfig⟩, ?_, ?_⟩
  · intro peers timeout store recovery hv hopen hone
    obtain ⟨n, hrec⟩ := recover_total hv timeout store recovery
    have hop : OpSafe _ h id s (.compact index state) :=
      hsim.opSafe hup trivial (seen_eventSafe hsim hcompacts hnow)
    obtain ⟨h', hsim', _⟩ := hsim.execOp hup hop
    have hexec : Op.exec (.compact index state) s = .ok (.accepted true) s' := by
      simp only [Op.exec, bind, EStateM.bind, hcompact]
      rfl
    have hup' : ((c.execOp id s (.compact index state)).procs id).node? = some s' := by
      unfold Cluster.execOp
      rw [hexec]
      simp [Proc.node?]
    obtain ⟨_, _, _, _, hf⟩ := recover_good hsim'.sane (ProcInv.down hsim'.sane (hsim'.procs id) hup')
      hv (fun _ _ _ hd _ => hd.single_of_pendingConfigs hone) hopen hrec
    exact ⟨n, hrec, hf fun _ => trivial⟩
  · intro m t u htype hsnap hrunning hterm hlt hpending hstep hu j e hj he hplain
    have hlastj : j ≤ x.length := by
      rw [← hview.lastIndex]
      exact (entryAt?_inLog he).2.1
    rw [hview.entryAt? (by omega) hlastj] at he
    have hwf : WellFormed voters x := hsim.sane.log_wf hsound
    -- no change of voters between the snapshot and the entry
    have hsame : configAfter voters (x.take (j - 1)) = configAfter voters (x.take index) := by
      rw [← configAfter_take (x := x.take (j - 1)) (q := index), take_take_of_le (by omega)]
      intro a ha hca
      have hle : a ≤ j - 1 := by
        have := hca.le_length
        simp only [List.length_take] at this
        omega
      obtain ⟨a, rfl⟩ : ∃ i, a = i + 1 := ⟨a - 1, by omega⟩
      obtain ⟨e', he', hconf'⟩ := (Protocol.confAt_take hle).mp hca
      refine hplain (a + 1) ha (by omega) ⟨e', ?_, isConfig_iff.mpr hconf'⟩
      rwa [hview.entryAt? (by omega) (by omega), Nat.add_sub_cancel]
    have hold : m.snapshotOld ≠ 0 := by
      have : (configAfter voters (x.take index)).1 ≠ 0 :=
        configAfter_old_ne_zero (member_ne_zero hd.own.2) (hwf.of_pre (List.take_prefix index x))
      rw [hconfig, ← hsnap] at this
      exact this
    have hindexm : m.snapshotIndex = index := by
      rw [← hlast, ← hsnap]
      rfl
    obtain ⟨hvoters', hpending'⟩ := voters_of_installed hrunning htype hterm hold (by omega) hstep hu
    refine Fits.valid (hwf (j - 1) e he) ?_ (hpending'.trans hpending)
    rw [hsame, hconfig, hvoters', ← hsnap]
    rfl

/-! Node 1 of `threeNodes` is elected and starts a transition to the voters 1 and 2, which
commits at index 2. A compaction at 2 has nothing behind it, one at 1 has the transition. -/

def transitionCommitted : List Event :=
  threeNodes.schedule 7 [.act 1 .tick, .deliver 0, .deliver 2, .deliver 3, .deliver 5, .deliver 6,
    .deliver 8, .act 1 (.proposeJoint [1, 2]), .deliver 10, .deliver 12, .deliver 13, .deliver 16,
    .act 1 .applyEntries]

/-- The voters of the snapshot that a compaction leaves. -/
def compactedVoters (s : Node Disk) (index : Nat) : Option (Word × Word) :=
  match compact index [] s with
  | .ok true s' => some (s'.snapshot.oldVoters, s'.snapshot.newVoters)
  | _ => none

theorem compactedVoters_some {s : Node Disk} {index : Nat} {voters : Word × Word}
    (h : compactedVoters s index = some voters) : ∃ s', compact index [] s = .ok true s' ∧
      (s'.snapshot.oldVoters, s'.snapshot.newVoters) = voters := by
  unfold compactedVoters at h
  split at h
  · rename_i s' hrun
    exact ⟨s', hrun, Option.some.inj h⟩
  · cases h

theorem snapshot_voters_transitionCommitted : ∃ (c : Cluster Disk) (s s' : Node Disk)
    (entries : List Entry), threeNodes.run 7 transitionCommitted = some c ∧ c.procs 1 = .up s ∧
    compact 2 [] s = .ok true s' ∧ threeNodes.CommittedLog 7 transitionCommitted 2 entries ∧
    configAfter 7 entries = (s'.snapshot.oldVoters, s'.snapshot.newVoters) ∧
    (s'.snapshot.oldVoters, s'.snapshot.newVoters) = (7, 3) := by
  obtain ⟨_, c, hnil, hrun, hkeeps, s, hup, hvoters⟩ :=
    threeNodes.run_check 7 [] transitionCommitted (fun _ c =>
      c.KeepsVoters (.op 1 (.compact 2 [])) ∧
      ∃ s, c.procs 1 = .up s ∧ compactedVoters s 2 = some (7, 3)) (by decide +kernel)
  cases hnil
  obtain ⟨s', hcompact, hs'⟩ := compactedVoters_some hvoters
  obtain ⟨_, _, ⟨entries, hlog, hconf⟩, _⟩ := snapshot_voters_of_committed_log threeNodes_initial
    (by decide +kernel) hrun hup hkeeps hcompact
  exact ⟨c, s, s', entries, hrun, hup, hcompact, hlog, hconf, hs'⟩

/-- The node that is rebuilt from what a compaction leaves is stopped. -/
def stopsAfterCompact (s : Node Disk) (index : Nat) (peers : List Nat) : Bool :=
  match compact index [] s with
  | .ok true s' =>
    match OpenStore.reopen s'.store with
    | some (store, recovery) =>
      match recover s.id peers s.timeout store recovery with
      | .ok n => n.faulted
      | .error _ => false
    | none => false
  | _ => false

/-- A snapshot of the first entry has the voters of the second one, and a restart refuses
the log behind it. -/
theorem early_snapshot_has_later_voters : ∃ (c : Cluster Disk) (s s' : Node Disk),
    threeNodes.Initial 7 ∧ threeNodes.run 7 transitionCommitted = some c ∧ c.procs 1 = .up s ∧
    s.baseIndex < 1 ∧ 1 ≤ s.applied ∧ compact 1 [] s = .ok true s' ∧
    (¬ ∃ entries, threeNodes.CommittedLog 7 transitionCommitted 1 entries ∧
      configAfter 7 entries = (s'.snapshot.oldVoters, s'.snapshot.newVoters)) ∧
    stopsAfterCompact s 1 [2, 3] = true := by
  obtain ⟨_, c, hnil, hrun, s, hup, hbase, happlied, hfirst, hvoters, hstops⟩ :=
    threeNodes.run_check 7 [] transitionCommitted (fun _ c => ∃ s, c.procs 1 = .up s ∧
      s.baseIndex < 1 ∧ 1 ≤ s.applied ∧
      s.committedEntry 1 = some { term := 1, kind := .noop } ∧
      compactedVoters s 1 = some (7, 3) ∧ stopsAfterCompact s 1 [2, 3] = true) (by decide +kernel)
  cases hnil
  obtain ⟨s', hcompact, hs'⟩ := compactedVoters_some hvoters
  refine ⟨c, s, s', threeNodes_initial, hrun, hup, hbase, happlied, hcompact, ?_, hstops⟩
  rintro ⟨entries, ⟨hlen, hlog⟩, hconf⟩
  have hhead := (hlog 0 _).mpr ⟨by omega, _, [], c, (List.append_nil _).symm, hrun,
    Or.inl ⟨1, s, by rw [hup]; rfl, hfirst⟩⟩
  obtain ⟨e, rfl⟩ := List.length_eq_one_iff.mp hlen
  cases hhead
  rw [hs'] at hconf
  exact absurd hconf (by decide)

end Promtact.Raft
