import Promtact.Raft.Safety

/-!
# The voters follow the committed log

A node writes its voters in four places: when a change commits, when it takes over
a snapshot, when it recovers, and when it is new. They are meant to be those that
the committed log establishes. `voters_of_committed_log` says when they are. Three
steps break it:

* an `InstallSnapshot` from behind the commit index resets the voters to those of
  the snapshot (`staleSnapshotRun`);
* a compaction behind the commit index stores the voters of the commit index;
* a recovery that meets two changes behind the commit index gives up half way.
-/

namespace Promtact.Raft

open QuorumLog
open Node (indexes)

variable {σ : Type} [LawfulStore σ] {K : Setting σ} {n : Nat}
variable {h : History Nat Entry} {s : Node σ} {c c' : Cluster σ} {voters : Word}

/-! ## What a run commits -/

namespace Cluster

/-- Some node shows the entry as committed at some moment of the run. -/
def Commits (voters : Word) (c₀ : Cluster σ) (events : List Event) (i : Nat) (e : Entry) : Prop :=
  ∃ before after c, events = before ++ after ∧ c₀.run voters before = some c ∧ c.Shows i e

/-- The first `k` entries that the run commits, in order. -/
def CommittedLog (voters : Word) (c₀ : Cluster σ) (events : List Event) (k : Nat)
    (entries : List Entry) : Prop :=
  entries.length = k ∧
    ∀ i e, entries[i]? = some e ↔ i < k ∧ c₀.Commits voters events (i + 1) e

/-- The steps that keep the voters in line with the log. Where a node compacts at
`index`, no joint or final configuration stands at an index in `(index, Commit]`. A
snapshot that a node takes over with a last index below Commit carries the voters
that the node has. And a restart finds at most one joint or final configuration at
an index above the commit index that is stored. -/
def KeepsVoters (c : Cluster σ) : Event → Prop
  | .op id (.step m) => ∀ s, c.procs id = .up s → s.KeepsVoters m
  | .op id (.compact index _) => ∀ s, c.procs id = .up s → s.baseIndex < index →
      index ≤ s.applied → s.plainBehind index = true
  | .restart id _ _ => ∀ s, (c.procs id).node? = some s →
      (LawfulStore.durable s.store).settle.pendingConfigs.length ≤ 1
  | _ => True

instance (c : Cluster σ) : (ev : Event) → Decidable (c.KeepsVoters ev)
  | .op id (.step m) => inferInstanceAs (Decidable (∀ s, c.procs id = .up s → s.KeepsVoters m))
  | .op id (.compact index _) => inferInstanceAs (Decidable (∀ s, c.procs id = .up s →
      s.baseIndex < index → index ≤ s.applied → s.plainBehind index = true))
  | .restart id _ _ => inferInstanceAs (Decidable (∀ s, (c.procs id).node? = some s →
      (LawfulStore.durable s.store).settle.pendingConfigs.length ≤ 1))
  | .op _ .tick | .op _ (.propose _) | .op _ (.proposeRequest ..) | .op _ (.proposeJoint _)
  | .op _ .proposeFinal | .op _ (.transferLeadership _) | .op _ (.startReadIndex _)
  | .op _ .applyEntries | .op _ .drain => .isTrue trivial

end Cluster

/-! ## Every entry of a snapshot was shown -/

/-- Changing voters and snapshots of entries that were seen before. -/
def seenSetting (σ : Type) [LawfulStore σ] (voters : Word) (Seen : Nat → Entry → Prop) :
    Setting σ where
  voters := voters
  reconf := True
  orderly := True
  Image y _ := ∀ i e, y[i]? = some e → Seen (i + 1) e
  fresh := False
  started _ _ := none
  reliable := False
  reliable_store := store_of_never
  reliable_orderly := orderly_of_never
  fresh_fixed := fixed_of_never

theorem Good.settled (hs : Sane K h) (ht : K.Traced) (hg : Good K n h s) : s.Settled K h n :=
  hg.elim (LiveAt.settled hs) fun hd => hd.settled ht

section Seen

variable {Seen : Nat → Entry → Prop}

/-- What a node has committed was seen: what it still holds is shown by the node
itself, and the rest is in a snapshot. -/
theorem Sim.log_seen (hsim : Sim (seenSetting σ voters Seen) c h) {id : Nat}
    (hup : c.procs id = .up s) (hnow : ∀ i e, c.Shows i e → Seen i e) :
    ∃ x, View voters x s.baseIndex s.log ∧ h.Sound (protocol voters) x ∧ s.commit ≤ x.length ∧
      h.Committed (h.term id) (x.take s.commit) ∧
      configAfter voters (x.take s.commit) = (s.votersOld, s.votersNew) ∧
      ∀ i e, (x.take s.commit)[i]? = some e → Seen (i + 1) e := by
  have hgood : Good (seenSetting σ voters Seen) id h s := by
    have := hsim.procs id
    rwa [hup] at this
  obtain ⟨hcov, x, hview, hsound, _, _, hcx, hcom, hconf⟩ :=
    hgood.settled hsim.sane fun _ => trivial
  refine ⟨x, hview, hsound, hcx, hcom, hconf, fun i e he => ?_⟩
  have hi : i < s.commit := by
    have := (List.getElem?_eq_some_iff.mp he).1
    rw [List.length_take] at this
    omega
  rcases Nat.lt_or_ge i s.baseIndex with hlt | hge
  · -- the entry was discarded
    rcases (hgood.down hsim.sane).dur.snapshot with hempty | ⟨y, _, hy, ⟨hlast, _, _, himage⟩, _⟩
    · rw [hempty] at hcov
      have : s.baseIndex ≤ 0 := hcov
      omega
    · exact himage i e (hsim.sane.valid.committed_getElem hcom hy he (by omega))
  · refine hnow (i + 1) e (Or.inl ⟨id, s, by rw [hup]; rfl, ?_⟩)
    unfold Node.committedEntry
    rw [if_pos ⟨by omega, by omega⟩, hview.entryAt? (by omega) (by omega), Nat.add_sub_cancel,
      ← List.getElem?_take_of_lt hi, he]

/-- The conditions on the steps are what the simulation needs. -/
theorem seen_eventSafe {ev : Event} (hsim : Sim (seenSetting σ voters Seen) c h)
    (hkeeps : c.KeepsVoters ev) (hnow : ∀ i e, c.Shows i e → Seen i e) :
    EventSafe (seenSetting σ voters Seen) c h ev := by
  cases ev with
  | restart id peers timeout => exact fun _ _ s hs => Or.inr (Or.inr (hkeeps s hs))
  | op id op =>
    cases op with
    | step m => exact fun s hup => ⟨fun _ => hkeeps s hup, False.elim, False.elim, False.elim,
        fun _ _ _ _ _ _ _ => trivial⟩
    | proposeJoint ids => exact ⟨trivial, False.elim⟩
    | propose command => exact fun _ _ _ => trivial
    | proposeRequest operation clientID requestID key value => exact fun _ _ _ => trivial
    | startReadIndex context => exact False.elim
    | transferLeadership target => exact False.elim
    | compact index state =>
      intro s hup hb hi
      refine ⟨fun y hlen hy i e he => ?_, fun _ _ _ => trivial, fun _ => ⟨trivial, hkeeps s hup hb hi⟩⟩
      obtain ⟨x, _, _, hcx, hcom, _, hseen⟩ := hsim.log_seen hup hnow
      have hgood := hsim.procs id
      rw [hup] at hgood
      have hac := Good.applied_le hgood
      have hlt := (List.getElem?_eq_some_iff.mp he).1
      refine hseen i e (hsim.sane.valid.committed_getElem hy hcom he ?_)
      rw [List.length_take]
      omega
    | _ => trivial

end Seen

/-! ## The voters of a node -/

/-- What a node has committed, in a run that keeps the voters in line: the log that it
holds a part of, which the run commits, and which establishes its voters. -/
theorem committed_of_run {c₀ : Cluster σ} {events : List Event} (hinit : c₀.Initial voters)
    (hkeeps : c₀.Always voters Cluster.KeepsVoters events)
    (hrun : c₀.run voters events = some c) :
    ∃ h, Sim (seenSetting σ voters (c₀.Commits voters events)) c h ∧
      (∀ i e, c.Shows i e → c₀.Commits voters events i e) ∧
      ∀ id s, c.procs id = .up s → ∃ x, View voters x s.baseIndex s.log ∧
        h.Sound (protocol voters) x ∧ s.commit ≤ x.length ∧
        configAfter voters (x.take s.commit) = (s.votersOld, s.votersNew) ∧
        ∀ k ≤ s.commit, c₀.CommittedLog voters events k (x.take k) := by
  have hsim₀ := hinit.sim (K := seenSetting σ voters (c₀.Commits voters events)) fun _ _ => rfl
  have hreached := hkeeps.reached (show c₀.run voters [] = some c₀ from rfl)
  obtain ⟨h, hsim, _, hall⟩ := hsim₀.run_all (by
    rintro c h ev hsim ⟨hk, before, after, hsplit, hrun₁⟩
    exact seen_eventSafe hsim hk fun i e hs => ⟨before, after, c, hsplit, hrun₁, hs⟩) hreached hrun
  have hnow : ∀ i e, c.Shows i e → c₀.Commits voters events i e := fun i e hs =>
    ⟨events, [], c, (List.append_nil _).symm, hrun, hs⟩
  refine ⟨h, hsim, hnow, fun id s hup => ?_⟩
  obtain ⟨x, hview, hsound, hcx, hcom, hconf, hseen⟩ := hsim.log_seen hup hnow
  refine ⟨x, hview, hsound, hcx, hconf, fun k hk => ⟨?_, fun i e => ⟨fun he => ?_, ?_⟩⟩⟩
  · rw [List.length_take]
    omega
  · have hlt := (List.getElem?_eq_some_iff.mp he).1
    rw [List.length_take] at hlt
    refine ⟨by omega, hseen i e ?_⟩
    rw [List.getElem?_take_of_lt (by omega)] at he ⊢
    exact he
  · rintro ⟨hi, before, after, c₁, hsplit, hrun₁, hs⟩
    obtain ⟨h₁, hsim₁, hl⟩ := hall before after c₁ hsplit hrun₁
    obtain ⟨t, z, hz, _, he⟩ := hsim₁.shows hs
    have := hsim.sane.valid.committed_getElem (hl.committed hz) hcom he
      (by rw [List.length_take]; omega)
    rw [Nat.add_sub_cancel, List.getElem?_take_of_lt (by omega)] at this
    rwa [List.getElem?_take_of_lt hi]

/-- The voters of every node are those that the committed log establishes from the
initial voters, as long as the steps keep to the following. A compaction at `index`
finds no joint or final configuration at an index in `(index, Commit]`. A snapshot
that a node takes over with a last index below Commit carries the node's own voters.
And a restart finds at most one change of voters above the stored commit index. -/
theorem voters_of_committed_log {c₀ : Cluster σ} {events : List Event} (hinit : c₀.Initial voters)
    (hkeeps : c₀.Always voters Cluster.KeepsVoters events)
    (hrun : c₀.run voters events = some c) {id : Nat} (hup : c.procs id = .up s) :
    ∃ entries, c₀.CommittedLog voters events s.commit entries ∧
      configAfter voters entries = (s.votersOld, s.votersNew) := by
  obtain ⟨h, _, _, hnode⟩ := committed_of_run hinit hkeeps hrun
  obtain ⟨x, _, _, _, hconf, hlog⟩ := hnode id s hup
  exact ⟨x.take s.commit, hlog s.commit (Nat.le_refl _), hconf⟩

/-! Node 3 has acknowledged entry 1 when node 1 compacts at 1; the acknowledgement
is late, so node 1 sends its snapshot. In the first run the snapshot arrives, and
then node 1 starts a transition to the voters 1 and 2, commits it, and node 3
learns of it and restarts. In the second run the snapshot arrives last. -/

def lateAck : List Cluster.Move :=
  [.act 1 .tick, .deliver 0, .deliver 2, .deliver 3, .deliver 5, .deliver 6, .deliver 8, .deliver 9,
    .deliver 10, .deliver 7, .deliver 13, .deliver 14, .act 1 .applyEntries, .act 1 (.compact 1 []),
    .act 1 .tick, .act 1 .tick, .act 1 .tick]

def promptSnapshotRun : List Event :=
  threeNodes.schedule 7 (lateAck ++ [.deliver 17, .deliver 18, .act 1 (.proposeJoint [1, 2]),
    .deliver 16, .deliver 19, .deliver 22, .deliver 24, .restart 3 [1, 2] 3])

theorem voters_of_committed_log_promptSnapshotRun : ∃ (c : Cluster Disk) (s : Node Disk)
    (entries : List Entry), threeNodes.run 7 promptSnapshotRun = some c ∧ c.procs 3 = .up s ∧
    (s.baseIndex, s.commit, s.votersOld, s.votersNew) = (1, 2, 7, 3) ∧
    threeNodes.CommittedLog 7 promptSnapshotRun s.commit entries ∧
    configAfter 7 entries = (s.votersOld, s.votersNew) := by
  obtain ⟨c, _, hc, _, s, hup, hs⟩ := threeNodes.run_check 7 promptSnapshotRun [] (fun c _ =>
    ∃ s, c.procs 3 = .up s ∧ (s.baseIndex, s.commit, s.votersOld, s.votersNew) = (1, 2, 7, 3))
    (by decide +kernel)
  obtain ⟨entries, hlog, hconf⟩ :=
    voters_of_committed_log threeNodes_initial (by decide +kernel) hc hup
  exact ⟨c, s, entries, hc, hup, hs, hlog, hconf⟩

def staleSnapshotRun : List Event :=
  threeNodes.schedule 7 (lateAck ++ [.deliver 15, .act 1 (.proposeJoint [1, 2]), .deliver 18,
    .deliver 20, .deliver 22, .deliver 17])

/-- The stale snapshot takes node 3 back to the initial voters, although the entry
that starts the transition is committed there. -/
theorem stale_snapshot_resets_voters : ∃ (c : Cluster Disk) (s : Node Disk),
    threeNodes.Initial 7 ∧ threeNodes.run 7 staleSnapshotRun = some c ∧ c.procs 3 = .up s ∧
    ¬ ∃ entries, threeNodes.CommittedLog 7 staleSnapshotRun s.commit entries ∧
      configAfter 7 entries = (s.votersOld, s.votersNew) := by
  obtain ⟨c₁, c, hc₁, hc₂, ⟨s₁, hup₁, hone⟩, s, hup, hcommit, hvoters, htwo⟩ :=
    threeNodes.run_check 7 (staleSnapshotRun.take 18) (staleSnapshotRun.drop 18) (fun c₁ c =>
      (∃ s, c₁.procs 1 = .up s ∧ s.committedEntry 1 = some { term := 1, kind := .noop }) ∧
      ∃ s, c.procs 3 = .up s ∧ s.commit = 2 ∧ (s.votersOld, s.votersNew) = (7, 0) ∧
        s.committedEntry 2 =
          some { term := 1, kind := .jointConfig, oldVoters := 7, newVoters := 3 })
      (by decide +kernel)
  have hsplit := List.take_append_drop 18 staleSnapshotRun
  have hc : threeNodes.run 7 staleSnapshotRun = some c := by
    rw [← hsplit, Cluster.run_append, hc₁, Option.bind_some, hc₂]
  refine ⟨c, s, threeNodes_initial, hc, hup, ?_⟩
  rintro ⟨entries, ⟨hlen, hlog⟩, hconf⟩
  have hfirst := (hlog 0 _).mpr ⟨by omega, _, _, c₁, hsplit.symm, hc₁,
    Or.inl ⟨1, s₁, by rw [hup₁]; rfl, hone⟩⟩
  have hsecond := (hlog 1 _).mpr ⟨by omega, _, [], c, (List.append_nil _).symm, hc,
    Or.inl ⟨3, s, by rw [hup]; rfl, htwo⟩⟩
  rw [hcommit] at hlen
  obtain ⟨e₁, e₂, rfl⟩ := List.length_eq_two.mp hlen
  cases hfirst
  cases hsecond
  rw [hvoters] at hconf
  exact absurd hconf (by decide)

end Promtact.Raft
