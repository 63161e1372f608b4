import Promtact.Raft.Snapshots

/-!
# Every operation of a node

The operations that a node offers, with what each of them needs: a message has to
be one that the history supports, a snapshot has to be one of the applied log,
and the context of a read barrier has to be new. Every operation leaves the node
running or stopped by its store, and what it hands out is supported as well.
-/

namespace Promtact.Raft

open QuorumLog GhostState
open Node (indexes)

variable {σ : Type} [LawfulStore σ] {K : Setting σ} {n : Nat}
variable {h h' : History Nat Entry} {s s' : Node σ} {M : Mode} {i j : Nat} {g g' : Hist K}
variable {m : Message}

/-! ## Messages -/

/-- A snapshot from behind the commit index, when the node takes it over, carries
the voters that the node has. -/
def Node.KeepsVoters (s : Node σ) (m : Message) : Prop :=
  s.faulted = false → m.type = .installSnapshot → s.term ≤ m.term → m.snapshotOld ≠ 0 →
    s.baseIndex < m.snapshotIndex → m.snapshotIndex < s.commit →
    (m.snapshotOld, m.snapshotNew) = (s.votersOld, s.votersNew)

instance (s : Node σ) (m : Message) : Decidable (s.KeepsVoters m) := by
  unfold Node.KeepsVoters
  infer_instance

/-- A snapshot that the node takes over ends in an entry that the node holds. -/
def Node.HoldsBase (s : Node σ) (m : Message) : Prop :=
  s.faulted = false → m.type = .installSnapshot → s.term ≤ m.term → m.snapshotOld ≠ 0 →
    s.baseIndex < m.snapshotIndex → s.termAt m.snapshotIndex = some m.snapshotTerm

instance (s : Node σ) (m : Message) : Decidable (s.HoldsBase m) := by
  unfold Node.HoldsBase
  infer_instance

/-- A snapshot that the node takes over ends in its log. -/
def Node.EndsInLog (s : Node σ) (m : Message) : Prop :=
  s.faulted = false → m.type = .installSnapshot → s.term ≤ m.term → m.snapshotOld ≠ 0 →
    s.baseIndex < m.snapshotIndex → m.snapshotIndex ≤ s.lastIndex

/-- What a message has to keep to, for the node that takes it. -/
structure StepSafe (K : Setting σ) (s : Node σ) (m : Message) : Prop where
  voters : K.reconf → s.KeepsVoters m
  held : K.snug → s.HoldsBase m
  single : K.neat → s.KeepsSingle m
  reach : K.reach → s.EndsInLog m
  own : s.faulted = false → m.type = .installSnapshot → s.term ≤ m.term → m.snapshotOld ≠ 0 →
    s.baseIndex < m.snapshotIndex → ∀ y, K.Image y m.snapshot → K.Own s.id y m.snapshot

/-- The condition on appends only reads the term, the commit index and the log. -/
theorem Node.KeepsSingle.transfer {x : List Entry} (hk : s.KeepsSingle m)
    (hview : View K.voters x s.baseIndex s.log) (hview' : View K.voters x s'.baseIndex s'.log)
    (hbase : s'.baseIndex = s.baseIndex) (hcommit : s'.commit = s.commit)
    (hle : s.baseIndex ≤ s.commit) (hterm : s.term ≤ s'.term) (hrun : s.faulted = false) :
    s'.KeepsSingle m := by
  intro _ htype ht he hc hlt hprev hnext
  have hlast : s'.lastIndex = s.lastIndex := by rw [hview.lastIndex, hview'.lastIndex]
  have hsame : ∀ i t, s'.termAt i = some t ↔ s.termAt i = some t := fun i t => by
    rw [hview.termAt_eq_some, hview'.termAt_eq_some, hbase]
  have hall := hk hrun htype (by omega) he hc (by omega) ((hsame _ _).mp hprev)
    fun hsome => hnext ((hsame _ _).mpr hsome)
  rw [hcommit]
  refine List.all_eq_true.mpr fun a ha => ?_
  obtain ⟨hlo, hhi⟩ := mem_indexes.mp ha
  have hlen : a ≤ x.length := by
    have := hview.lastIndex
    omega
  have := List.all_eq_true.mp hall a ha
  rwa [hview'.entryAt? (by omega) hlen, ← hview.entryAt? (by omega) hlen]

theorem wp_step (hg : Good K n g.1 s) (hm : MsgInv K g.1 m) (hto : m.toID = n)
    (hsafe : StepSafe K s m) : NWp K n (step m) (Ends K n) g s := by
  refine Wp.bind (Wp.of_get (Wp.ite (fun _ => Wp.of_pure hg) fun hrun => ?_))
  rcases hg with hl | hd
  · refine Wp.bind (wp_adoptTerm hl ?_ ?_)
    · intro g₁ s₁ hg₁ hlog hcommit hbase hterm hl₁
      have hm₁ := hm.grow hg₁
      have hmono : s.term ≤ s₁.term := by
        rw [← hl.voted.1, ← hl₁.voted.1]; exact hg₁.term_le' n
      have hcommit₁ : s₁.commit = s.commit := by
        rw [← hl.logged.commit_eq, ← hl₁.logged.commit_eq, hcommit]
      have hvoters : (s₁.votersOld, s₁.votersNew) = (s.votersOld, s.votersNew) := by
        have hconf := hl.configured.1
        rw [← hl₁.configured.1, hlog, hcommit₁]
        exact hconf
      refine Wp.ite (fun hno => absurd hno (by decide)) fun _ => ?_
      have hle : m.type ≠ .preVote → m.type ≠ .preVoteResponse → m.term ≤ s₁.term :=
        fun h1 h2 => (hterm.resolve_left h1).resolve_left h2
      cases htype : m.type with
      | preVote => exact wp_onPreVote hl₁ hm₁ hto
      | preVoteResponse => exact wp_onPreVoteResponse hl₁ hm₁
      | requestVote => exact wp_onVote hl₁ hm₁ htype hto
      | requestVoteResponse => exact wp_onVoteResponse hl₁ hm₁ htype hto
      | append =>
        refine wp_onAppend hl₁ hm₁ htype hto (hle (by simp [htype]) (by simp [htype]))
          fun hk => ?_
        have hview := hl₁.logged.view
        rw [hlog] at hview
        exact (hsafe.single hk).transfer hl.logged.view hview hbase hcommit₁
          hl.base_le_commit hmono hl.running
      | appendResponse => exact wp_onAppendResponse hl₁ hm₁ htype hto
      | installSnapshot =>
        refine wp_onInstallSnapshot hl₁ hm₁ htype hto (hle (by simp [htype]) (by simp [htype]))
          ?_ ?_ ?_ ?_
        · rw [hbase, hcommit₁, hvoters]
          intro hr hterm₁ hold
          exact hsafe.voters hr hl.running htype (by omega) hold
        · intro hk hterm₁ hold hgt
          rw [hbase] at hgt
          obtain ⟨hb, hi, ht⟩ := hl.logged.view.termAt_eq_some.mp
            (hsafe.held hk hl.running htype (by omega) hold hgt)
          refine hl₁.logged.view.termAt_eq_some.mpr ?_
          rw [hbase, hlog]
          exact ⟨hb, hi, ht⟩
        · intro hk hterm₁ hold hgt
          rw [hl₁.logged.view.lastIndex, hlog, ← hl.logged.view.lastIndex]
          exact hsafe.reach hk hl.running htype (by omega) hold (by rwa [hbase] at hgt)
        · intro hterm₁ hold hgt
          rw [← hl.named.own]
          exact hsafe.own hl.running htype (by omega) hold (by rwa [hbase] at hgt)
      | installSnapshotResponse => exact wp_onInstallSnapshotResponse hl₁ hm₁ htype hto
      | timeoutNow => exact wp_onTimeoutNow hl₁
      | other c => exact Wp.of_pure (Live.good hl₁)
    · intro g' s' hd
      exact Wp.of_pure (Or.inr hd)
  · exact absurd hd.stopped hrun

/-! ## What a node hands out -/

theorem wp_drain (hg : Good K n g.1 s) :
    NWp K n drain (fun out g' s' => Good K n g'.1 s' ∧ ∀ m ∈ out, MsgInv K g'.1 m) g s := by
  refine Wp.of_ok rfl (show Hist.Rel K n g g from History.Grows.refl n g.1) ?_
  rcases hg with hl | hd
  · replace hl : LiveAt K n .full s.commit g.1 s := hl
    refine ⟨Live.good ?_, hl.out⟩
    exact { hl with out := fun m hm => by cases hm }
  · refine ⟨Or.inr { hd with silent := rfl }, ?_⟩
    rw [hd.silent]
    intro m hm
    cases hm

/-- A node that has applied up to `k`. -/
theorem Good.apply (hg : Good K n h s) {k : Nat} (hk : s.applied ≤ k) (hk' : k ≤ s.commit) :
    Good K n h { s with applied := k } := by
  rcases hg with hl | hd
  · replace hl : LiveAt K n .full s.commit h s := hl
    refine Live.good { hl with logged := { hl.logged with
      base_le := Nat.le_trans hl.logged.base_le hk
      applied_le := hk' } }
  · obtain ⟨x, hview, hsound, hb, _, hcx, hcom⟩ := hd.past
    refine Or.inr { hd with
      past := ⟨x, hview, hsound, Nat.le_trans hb hk, hk', hcx, hcom⟩
      settled := fun ht => ?_ }
    obtain ⟨hcov, x, hview, hsound, hb, _, hrest⟩ := hd.settled ht
    exact ⟨hcov, x, hview, hsound, Nat.le_trans hb hk, hk', hrest⟩

/-- The entries up to index `k` that a node has not applied yet. -/
def Node.unapplied (s : Node σ) (k : Nat) : List Entry :=
  (indexes (s.applied + 1) k).filterMap fun index => do
    let entry ← s.entryAt? index
    if entry.kind = .normal then some entry else none

omit [LawfulStore σ] in
theorem applications_entries (s : Node σ) :
    s.applications.map (·.entry) = s.unapplied s.commit := by
  unfold Node.applications Node.unapplied
  rw [List.map_filterMap]
  congr 1
  funext index
  cases hentry : s.entryAt? index with
  | none => rfl
  | some entry =>
    simp only [Option.bind_eq_bind, Option.bind_some]
    split <;> rfl

omit [LawfulStore σ] in
theorem unapplied_succ (s : Node σ) {k : Nat} (hk : s.applied ≤ k) {entry : Entry}
    (he : s.entryAt? (k + 1) = some entry) : s.unapplied (k + 1) =
      if entry.kind = .normal then s.unapplied k ++ [entry] else s.unapplied k := by
  have hsplit : indexes (s.applied + 1) (k + 1) = indexes (s.applied + 1) k ++ [k + 1] := by
    unfold indexes
    rw [show k + 1 + 1 - (s.applied + 1) = (k + 1 - (s.applied + 1)) + 1 by omega,
      List.range'_1_concat, show s.applied + 1 + (k + 1 - (s.applied + 1)) = k + 1 by omega]
  unfold Node.unapplied
  rw [hsplit, List.filterMap_append]
  split
  · rename_i hkind
    simp [he, hkind]
  · rename_i hkind
    simp [he, hkind]

omit [LawfulStore σ] in
theorem entryAt?_of_entryAt {entry : Entry} (he : s.entryAt i = .ok entry) :
    s.entryAt? i = some entry := by
  unfold Node.entryAt at he
  cases hentry : s.entryAt? i with
  | none => rw [hentry] at he; cases he
  | some e =>
    rw [hentry] at he
    cases he
    rfl

theorem Good.applied_le (hg : Good K n h s) : s.applied ≤ s.commit := by
  rcases hg with hl | hd
  · exact hl.logged.applied_le
  · obtain ⟨_, _, _, _, hac, _⟩ := hd.past
    exact hac

/-- `applyEntries` hands out the committed entries that were not applied yet. -/
theorem wp_applyEntries (hg : Good K n g.1 s) :
    NWp K n applyEntries (fun out g' s' => g' = g ∧ s' = { s with applied := s.commit } ∧
      out = s.unapplied s.commit) g s := by
  have hle := hg.applied_le
  refine Wp.bind (Wp.of_get ?_)
  unfold indexes
  refine (Wp.foldlM_range (I := fun i out g' s' => g' = g ∧ s' = { s with applied := i - 1 } ∧
    out = s.unapplied (i - 1)) ?_ ⟨rfl, rfl, ?_⟩).mono ?_
  · rintro i hi hi' out g' _ ⟨rfl, rfl, rfl⟩
    obtain ⟨k, rfl⟩ : ∃ k, i = k + 1 := ⟨i - 1, by omega⟩
    have hgood : Good K n g'.1 { s with applied := k + 1 } := hg.apply (by omega) (by omega)
    have hread : ∃ e, ({ s with applied := k + 1 } : Node σ).entryAt (k + 1) = .ok e := by
      obtain ⟨x, hview, _, hb, _, hcx, _⟩ := (hg.down g'.2).past
      exact hview.entryAt_ok (by omega) (by omega)
    refine Wp.bind (Wp.of_modify (Wp.bind (wp_ask (hgood.down g'.2) (fun _ => hread)
      fun entry hentry => ?_)))
    have hentry' : s.entryAt? (k + 1) = some entry := entryAt?_of_entryAt (s := s) hentry
    refine Wp.of_pure ⟨rfl, rfl, ?_⟩
    rw [Nat.add_sub_cancel, Nat.add_sub_cancel, unapplied_succ s (by omega) hentry']
  · simp [Node.unapplied, indexes]
  · rintro out g' s' ⟨rfl, hs', hout⟩
    rw [show s.applied + 1 + (s.commit + 1 - (s.applied + 1)) - 1 = s.commit by omega] at hs' hout
    exact ⟨rfl, hs', hout⟩

/-! ## Operations -/

/-- The entry of `propose`. -/
abbrev Node.commandEntry (s : Node σ) (command : Word) : Entry :=
  { term := s.term, command := command }

/-- The entry of `proposeRequest`. -/
abbrev Node.requestEntry (s : Node σ) (operation : CommandOp)
    (clientID requestID key value : Word) : Entry :=
  { term := s.term, operation := operation, clientID := clientID, requestID := requestID
    key := key, value := value }

/-- What the caller of an operation has to keep to. -/
def OpSafe (K : Setting σ) (h : History Nat Entry) (n : Nat) (s : Node σ) : Op → Prop
  | .step m => MsgInv K h m ∧ m.toID = n ∧ StepSafe K s m
  | .propose command => s.state = .leader → K.Legal (h.log n) (s.commandEntry command)
  | .proposeRequest operation clientID requestID key value => s.state = .leader →
      K.Legal (h.log n) (s.requestEntry operation clientID requestID key value)
  | .proposeJoint ids => K.reconf ∧ (K.closed → ∀ id ∈ ids, Member K.voters id)
  | .transferLeadership target => K.calm → 0 < target ∧ target ≤ 64
  | .startReadIndex c => K.fresh → K.started n c = some h
  | .compact index state =>
    s.baseIndex < index → index ≤ s.applied → Compacts K h n s index state
  | _ => True

/-- What an operation hands out. -/
def OutSafe (K : Setting σ) (h : History Nat Entry) : Output → Prop
  | .messages messages => ∀ m ∈ messages, MsgInv K h m
  | _ => True

/-- Every operation of a node. -/
theorem wp_exec {op : Op} (hg : Good K n g.1 s) (hop : OpSafe K g.1 n s op) :
    NWp K n op.exec (fun out g' s' => Good K n g'.1 s' ∧ OutSafe K g'.1 out) g s := by
  cases op with
  | tick => exact Wp.bind ((wp_tick hg).mono fun _ _ _ hg' => Wp.of_pure ⟨hg', trivial⟩)
  | step m =>
    exact Wp.bind ((wp_step hg hop.1 hop.2.1 hop.2.2).mono
      fun _ _ _ hg' => Wp.of_pure ⟨hg', trivial⟩)
  | propose command =>
    exact Wp.bind ((wp_propose hg command hop).mono fun _ _ _ hg' => Wp.of_pure ⟨hg', trivial⟩)
  | proposeRequest operation clientID requestID key value =>
    exact Wp.bind ((wp_proposeRequest hg operation clientID requestID key value hop).mono
      fun _ _ _ hg' => Wp.of_pure ⟨hg', trivial⟩)
  | proposeJoint newVoters =>
    exact Wp.bind ((wp_proposeJoint hg newVoters hop.1 hop.2).mono
      fun _ _ _ hg' => Wp.of_pure ⟨hg', trivial⟩)
  | proposeFinal =>
    exact Wp.bind ((wp_proposeFinal hg).mono fun _ _ _ hg' => Wp.of_pure ⟨hg', trivial⟩)
  | transferLeadership target =>
    exact Wp.bind ((wp_transferLeadership hg target hop).mono
      fun _ _ _ hg' => Wp.of_pure ⟨hg', trivial⟩)
  | startReadIndex context =>
    exact Wp.bind ((wp_startReadIndex hg hop).mono fun _ _ _ hg' => Wp.of_pure ⟨hg', trivial⟩)
  | applyEntries =>
    refine Wp.bind ((wp_applyEntries hg).mono ?_)
    rintro _ _ _ ⟨rfl, rfl, _⟩
    exact Wp.of_pure ⟨hg.apply hg.applied_le (Nat.le_refl _), trivial⟩
  | compact index state =>
    exact Wp.bind ((wp_compact hg hop).mono fun _ _ _ hg' => Wp.of_pure ⟨hg', trivial⟩)
  | drain =>
    exact Wp.bind ((wp_drain hg).mono fun _ _ _ hg' => Wp.of_pure hg')

end Promtact.Raft
