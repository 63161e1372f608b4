import Promtact.Raft.Along
import Promtact.Raft.Serving

/-!
# What a leader knows about its peers

A leader holds two indexes for each peer: the last one that the peer has acknowledged, and
the next one to send. They are `Ordered` when the first is below the second, and the second
is at most one behind the log.

Becoming leader puts them in order. While the node leads, appends, configurations and
clamping keep them so; `Advanced` also says that no acknowledged index falls, and `Leads` that
what is sent is `Due`. Only the two handlers of responses can break this, since they take
over what a response says: a response has to be `Timely`.
-/

namespace Promtact.Raft

open GhostState
open Function (update)
open Node (indexes)

variable {σ α : Type} {s₀ s s' : Node σ} {m : Message} {p : Nat}

namespace Node

def Ordered (s : Node σ) : Prop :=
  ∀ p ∈ s.peers, s.matchIndex p < s.next p ∧ s.next p ≤ s.lastIndex + 1

/-- The message sends a peer nothing that the peer has acknowledged: an append starts at or
behind the acknowledged index, and a snapshot goes to a peer that is behind the base. -/
def Due (s : Node σ) (m : Message) : Prop := m.toID ∈ s.peers →
  (m.type = .append → s.matchIndex m.toID ≤ m.logIndex) ∧
  (m.type = .installSnapshot → s.matchIndex m.toID < s.baseIndex)

/-- What the order depends on, and what is sent. -/
def progress (s : Node σ) :
    List Nat × (Nat → Nat) × (Nat → Nat) × List Entry × Nat × List Message :=
  (s.peers, s.next, s.matchIndex, s.log, s.baseIndex, s.outbound)

end Node

/-- The indexes are in order, and no acknowledged index is below what it was. -/
structure Advanced (s₀ s : Node σ) : Prop where
  ordered : s.Ordered
  grew : ∀ p ∈ s₀.peers, p ∈ s.peers ∧ s₀.matchIndex p ≤ s.matchIndex p

/-- Nothing is sent so far. -/
structure Quiet (s₀ s : Node σ) : Prop extends Advanced s₀ s where
  silent : s.outbound = s₀.outbound

structure Leads (s₀ s : Node σ) : Prop extends Advanced s₀ s where
  sent : ∃ new, s.outbound = s₀.outbound ++ new ∧ ∀ m ∈ new, s.Due m

theorem Node.Ordered.quiet (hs : s.Ordered) : Quiet s s :=
  ⟨⟨hs, fun _ hp => ⟨hp, Nat.le_refl _⟩⟩, rfl⟩

theorem Quiet.leads (hs : Quiet s₀ s) : Leads s₀ s :=
  { hs.toAdvanced with sent := ⟨[], by rw [hs.silent, List.append_nil], fun _ h => nomatch h⟩ }

theorem Quiet.of_progress (hs : Quiet s₀ s) (h : s'.progress = s.progress) : Quiet s₀ s' := by
  simp only [Node.progress, Prod.mk.injEq] at h
  obtain ⟨hpeers, hnext, hmatch, hlog, hbase, hout⟩ := h
  refine ⟨⟨?_, ?_⟩, hout.trans hs.silent⟩
  · unfold Node.Ordered Node.lastIndex
    rw [hpeers, hnext, hmatch, hlog, hbase]
    exact hs.ordered
  · rw [hpeers, hmatch]
    exact hs.grew

/-! ## Changes of the indexes -/

/-- The indexes of one peer change. -/
theorem Advanced.update (hs : Advanced s₀ s) (next index : Nat)
    (horder : p ∈ s.peers → index < next ∧ next ≤ s.lastIndex + 1)
    (hgrew : p ∈ s.peers → s.matchIndex p ≤ index) : Advanced s₀ { s with
      next := update s.next p next, matchIndex := update s.matchIndex p index } where
  ordered := by
    intro q hq
    by_cases hqp : q = p
    · subst hqp
      simpa [Node.lastIndex] using horder hq
    · simpa [hqp, Node.lastIndex] using hs.ordered q hq
  grew := by
    intro q hq
    obtain ⟨hmem, hle⟩ := hs.grew q hq
    refine ⟨hmem, ?_⟩
    by_cases hqp : q = p
    · subst hqp
      simpa using Nat.le_trans hle (hgrew hmem)
    · simpa [hqp] using hle

/-- Only the next index of one peer changes. -/
theorem Advanced.updateNext (hs : Advanced s₀ s) (next : Nat)
    (horder : p ∈ s.peers → s.matchIndex p < next ∧ next ≤ s.lastIndex + 1) :
    Advanced s₀ { s with next := Function.update s.next p next } := by
  have h := hs.update next (s.matchIndex p) horder fun _ => Nat.le_refl _
  rwa [Function.update_eq_self] at h

/-- A new peer starts at the end of the log. -/
theorem Quiet.ensurePeers (hs : Quiet s₀ s) (mask : Word) : Quiet s₀ (s.ensurePeers mask) := by
  unfold Node.ensurePeers
  generalize indexes 1 64 = l
  induction l generalizing s with
  | nil => exact hs
  | cons id l ih =>
    refine ih (s := s.ensurePeer mask id) ?_
    unfold Node.ensurePeer
    split
    · exact hs
    · rename_i hnew
      have hid : id ∉ s.peers := fun h => hnew (Or.inr (Or.inr h))
      refine ⟨⟨fun q hq => ?_, fun q hq => ?_⟩, hs.silent⟩
      · rcases List.mem_append.mp hq with hq | hq
        · have hne : q ≠ id := fun h => hid (h ▸ hq)
          simpa [hne, Node.lastIndex] using hs.ordered q hq
        · obtain rfl := List.mem_singleton.mp hq
          simp [Node.lastIndex]
      · obtain ⟨hmem, hle⟩ := hs.grew q hq
        have hne : q ≠ id := fun h => hid (h ▸ hmem)
        exact ⟨List.mem_append_left _ hmem, by simpa [hne] using hle⟩

theorem Quiet.concat (hs : Quiet s₀ s) (e : Entry) : Quiet s₀ { s with log := s.log ++ [e] } := by
  refine ⟨⟨fun q hq => ?_, hs.grew⟩, hs.silent⟩
  obtain ⟨hlt, hle⟩ := hs.ordered q hq
  refine ⟨hlt, Nat.le_trans hle ?_⟩
  simp only [Node.lastIndex, List.length_append, List.length_singleton]
  omega

theorem Quiet.drop (hs : Quiet s₀ s) {index term : Nat} (hterm : s.termAt index = some term) :
    Quiet s₀ { s with log := s.log.drop (index - s.baseIndex), baseIndex := index } := by
  obtain ⟨hlo, hhi⟩ := termAt_inLog hterm
  refine ⟨⟨fun q hq => ?_, hs.grew⟩, hs.silent⟩
  obtain ⟨hlt, hle⟩ := hs.ordered q hq
  refine ⟨hlt, Nat.le_trans hle ?_⟩
  simp only [Node.lastIndex, List.length_drop] at hhi ⊢
  omega

theorem Leads.send (hs : Leads s₀ s) (hdue : s.Due m) :
    Leads s₀ { s with outbound := s.outbound ++ [m] } := by
  obtain ⟨new, hout, hnew⟩ := hs.sent
  refine { ordered := hs.ordered, grew := hs.grew, sent := ⟨new ++ [m], ?_, fun m' hm' => ?_⟩ }
  · show s.outbound ++ [m] = _
    rw [hout, List.append_assoc]
  · rcases List.mem_append.mp hm' with hm' | hm'
    · exact hnew m' hm'
    · obtain rfl := List.mem_singleton.mp hm'
      exact hdue

/-! ## Sending -/

theorem lwp_send_leads (hs : Leads s₀ s) (hdue : s.Due m) :
    LWp {} (send m) (fun _ => Leads s₀) s :=
  LWp.bind (LWp.of_get (LWp.ite (fun _ => Wp.of_throw False.elim) fun _ =>
    LWp.of_ok rfl (hs.send hdue)))

/-- Answers are not what is sent to a peer on its own account. -/
theorem due_of_answer (happend : m.type ≠ .append) (hsnapshot : m.type ≠ .installSnapshot) :
    s.Due m := fun _ => ⟨fun h => absurd h happend, fun h => absurd h hsnapshot⟩

theorem lwp_appendToContext_leads {context : Word} (hs : Leads s₀ s) :
    LWp {} (appendToContext p context) (fun _ => Leads s₀) s := by
  refine LWp.bind (LWp.of_get (LWp.ite (fun hbase => ?_) fun _ => ?_))
  · refine lwp_send_leads hs fun hp => ⟨(nomatch ·), fun _ => ?_⟩
    exact Nat.lt_of_lt_of_le (hs.ordered p hp).1 hbase
  · refine LWp.bind (LWp.of_modify (LWp.bind (LWp.of_get ?_)))
    -- the next index of a peer is not beyond the log, so that nothing is clamped
    have hclamped : Leads s₀ (if s.next p > s.lastIndex + 1 then
        { s with next := update s.next p (s.lastIndex + 1) } else s) := by
      split
      · rename_i hbeyond
        have hno : p ∉ s.peers := fun hp => by
          have := (hs.ordered p hp).2
          omega
        exact { hs.toAdvanced.updateNext _ fun hp => absurd hp hno with sent := hs.sent }
      · exact hs
    generalize (if s.next p > s.lastIndex + 1 then
      { s with next := update s.next p (s.lastIndex + 1) } else s) = t at hclamped ⊢
    have hdue : p ∈ t.peers → t.matchIndex p ≤ (if t.next p = 0 then 1 else t.next p) - 1 := by
      intro hp
      have := (hclamped.ordered p hp).1
      split <;> omega
    refine LWp.bind (lwp_ask False.elim fun _ _ => LWp.ite (fun _ => ?_) fun _ => ?_)
    · exact LWp.bind (lwp_ask False.elim fun _ _ =>
        lwp_send_leads hclamped fun hp => ⟨fun _ => hdue hp, (nomatch ·)⟩)
    · exact lwp_send_leads hclamped fun hp => ⟨fun _ => hdue hp, (nomatch ·)⟩

theorem lwp_broadcastAppend_leads (hs : Leads s₀ s) :
    LWp {} broadcastAppend (fun _ => Leads s₀) s := by
  refine LWp.bind (LWp.of_get (LWp.forM (fun p _ s' hs' => ?_) hs))
  exact LWp.bind (lwp_ask False.elim fun _ _ =>
    LWp.ite (fun _ => lwp_appendToContext_leads hs') fun _ => LWp.of_pure hs')

/-! ## Committing -/

section Committing

variable {Q : Bool → Node σ → Prop}

/-- What changes of voters, new peers, stepping down and the pending index leave alone. -/
theorem lwp_applyCommittedConfigurations_keeps {I : Node σ → Prop} {first last : Nat}
    (hvoters : ∀ s old new, I s → I { s with votersOld := old, votersNew := new })
    (hpeers : ∀ s mask, I s → I (s.ensurePeers mask))
    (hdown : ∀ s, I s → I { s with state := .follower, leader := 0, readReady := false })
    (hpending : ∀ s, I s → I { s with pendingConfig := 0 }) (hs : I s) :
    LWp {} (applyCommittedConfigurations first last) (fun _ => I) s := by
  refine LWp.bind (LWp.of_get (LWp.forM (fun i _ s' hs' => ?_) hs))
  refine LWp.bind (lwp_ask False.elim fun e _ => LWp.bind ?_)
  refine LWp.mono (Q := fun _ => I) ?_ fun _ s₁ hs₁ => LWp.of_modify ?_
  · unfold installConfiguration
    split
    · exact LWp.bind (LWp.of_modify (LWp.of_modify (hpeers _ _ (hvoters s' _ _ hs'))))
    · refine LWp.bind (LWp.of_modify (LWp.bind (lwp_ask False.elim fun _ _ => ?_)))
      exact LWp.ite (fun _ => LWp.of_modify (hdown _ (hvoters s' _ _ hs')))
        fun _ => LWp.of_pure (hvoters s' _ _ hs')
    · exact LWp.of_pure hs'
  · split
    · exact hpending s₁ hs₁
    · exact hs₁

theorem lwp_applyCommittedConfigurations_quiet {first last : Nat} (hs : Quiet s₀ s) :
    LWp {} (applyCommittedConfigurations first last) (fun _ => Quiet s₀) s :=
  lwp_applyCommittedConfigurations_keeps (fun _ _ _ h => h.of_progress rfl)
    (fun _ mask h => h.ensurePeers mask) (fun _ h => h.of_progress rfl)
    (fun _ h => h.of_progress rfl) hs

variable [StableStore σ]

theorem lwp_commitTo_quiet {i : Nat} (hs : Quiet s₀ s) (hok : ∀ s', Quiet s₀ s' → Q true s')
    (hfailed : ∀ s' : Node σ, s'.Stopped → Q false s') : LWp {} (commitTo i) Q s := by
  refine LWp.bind (LWp.of_get (LWp.bind (lwp_tryStore (fun store => ?_) fun s' hs' =>
    LWp.of_pure (hfailed s' hs'))))
  refine LWp.bind (LWp.of_modify (LWp.bind ?_))
  exact (lwp_applyCommittedConfigurations_quiet (s := { s with store := store, commit := i })
    (hs.of_progress rfl)).mono fun _ s' hs' => LWp.of_pure (hok s' hs')

theorem lwp_commitOwn_quiet (hs : Quiet s₀ s) (hok : ∀ s', Quiet s₀ s' → Q true s')
    (hfailed : ∀ s' : Node σ, s'.Stopped → Q false s') : LWp {} commitOwn Q s := by
  refine LWp.bind (LWp.of_get (LWp.bind (LWp.of_modify (LWp.bind ?_))))
  refine lwp_tryStore (fun store => LWp.bind ?_) fun s' hs' =>
    LWp.bind (LWp.of_modify (LWp.of_pure (hfailed _ { hs' with })))
  exact (lwp_applyCommittedConfigurations_quiet (s := { s with
    store := store, commit := s.lastIndex }) (hs.of_progress rfl)).mono fun _ s' hs' =>
      LWp.of_pure (hok s' hs')

theorem lwp_appendLocal_quiet {e : Entry} (hs : Quiet s₀ s) (hok : ∀ s', Quiet s₀ s' → Q true s')
    (hfailed : ∀ s' : Node σ, s'.Stopped → Q false s') : LWp {} (appendLocal e) Q s := by
  refine LWp.bind (LWp.of_get (LWp.bind (lwp_tryStore (fun store => ?_) fun s' hs' =>
    LWp.of_pure (hfailed s' hs'))))
  have hs₁ : Quiet s₀ { s with store := store, log := s.log ++ [e] } :=
    (hs.concat e).of_progress rfl
  refine LWp.bind (LWp.of_modify (LWp.bind (lwp_ask False.elim fun _ _ => ?_)))
  exact LWp.bind (lwp_ask False.elim fun _ _ => LWp.ite (fun _ => LWp.of_pure (hok _ hs₁))
    fun _ => lwp_commitOwn_quiet hs₁ hok hfailed)

theorem lwp_advanceCommit_leads (hs : Quiet s₀ s) (hok : ∀ s', Leads s₀ s' → Q true s')
    (hfailed : ∀ s' : Node σ, s'.Stopped → Q false s') : LWp {} advanceCommit Q s := by
  refine LWp.bind (LWp.of_get (LWp.bind (lwp_ask False.elim fun found _ => ?_)))
  cases found with
  | none => exact LWp.of_pure (hok s hs.leads)
  | some i =>
    refine LWp.bind (lwp_commitTo_quiet hs (fun s₁ hs₁ => ?_) fun s' hs' =>
      LWp.of_pure (hfailed s' hs'))
    refine LWp.bind (LWp.of_get (LWp.ite (fun _ => LWp.bind ?_) fun _ =>
      LWp.of_pure (hok s₁ hs₁.leads)))
    exact (lwp_broadcastAppend_leads hs₁.leads).mono fun _ s₂ hs₂ => LWp.of_pure (hok s₂ hs₂)

end Committing

/-! ## Responses -/

namespace Node

/-- The response does not contradict what the leader holds about the peer. An acknowledgement
is not an old one, a rejection leaves the next index behind the acknowledged one, and a
snapshot is not acknowledged beyond the log. -/
structure TimelyResponse (s : Node σ) (m : Message) : Prop where
  acknowledged : m.type = .appendResponse → m.reject = false → m.matchIndex ≤ s.lastIndex →
    s.matchIndex m.fromID ≤ m.matchIndex
  rejected : m.type = .appendResponse → m.reject = true → m.matchIndex ≤ s.lastIndex →
    s.matchIndex m.fromID + 1 < s.next m.fromID ∨ s.next m.fromID ≤ 1
  installed : m.type = .installSnapshotResponse → m.reject = false → m.matchIndex ≤ s.lastIndex

/-- A leader that is asked to handle a response of a peer in its own term is asked for a
timely one. -/
def Timely (s : Node σ) : Op → Prop
  | .step m => s.state = .leader → m.term = s.term → m.fromID ∈ s.peers → s.TimelyResponse m
  | _ => True

instance (s : Node σ) (m : Message) : Decidable (s.TimelyResponse m) :=
  decidable_of_iff ((m.type = .appendResponse → m.reject = false → m.matchIndex ≤ s.lastIndex →
      s.matchIndex m.fromID ≤ m.matchIndex) ∧
    (m.type = .appendResponse → m.reject = true → m.matchIndex ≤ s.lastIndex →
      s.matchIndex m.fromID + 1 < s.next m.fromID ∨ s.next m.fromID ≤ 1) ∧
    (m.type = .installSnapshotResponse → m.reject = false → m.matchIndex ≤ s.lastIndex))
    ⟨fun h => ⟨h.1, h.2.1, h.2.2⟩, fun h => ⟨h.acknowledged, h.rejected, h.installed⟩⟩

instance (s : Node σ) (op : Op) : Decidable (s.Timely op) :=
  match op with
  | .step m => inferInstanceAs (Decidable (s.state = .leader → m.term = s.term →
      m.fromID ∈ s.peers → s.TimelyResponse m))
  | .tick | .propose _ | .proposeRequest .. | .proposeJoint _ | .proposeFinal
  | .transferLeadership _ | .startReadIndex _ | .applyEntries | .compact .. | .drain => isTrue trivial

end Node

/-- The node stops, or goes on as before. -/
def EndsLeading (s₀ : Node σ) (_ : α) (s : Node σ) : Prop := s.Stopped ∨ Leads s₀ s

theorem Quiet.ends (hs : Quiet s₀ s) (a : α) : EndsLeading s₀ a s := Or.inr hs.leads

theorem lwp_send_answer (hs : Quiet s₀ s) (happend : m.type ≠ .append)
    (hsnapshot : m.type ≠ .installSnapshot) : LWp {} (send m) (EndsLeading s₀) s :=
  (lwp_send_leads hs.leads (due_of_answer happend hsnapshot)).mono fun _ _ => Or.inr

section Responses

variable [StableStore σ]

theorem lwp_onAppendResponse_leads (hs : s.Ordered) (htype : m.type = .appendResponse)
    (htimely : s.Timely (.step m)) :
    LWp {} (onAppendResponse m) (EndsLeading s) s := by
  refine LWp.bind (lwp_confirmRead False.elim False.elim fun acks index ready => ?_)
  have hs₁ : Quiet s { s with readAckMask := acks, readIndex := index, readReady := ready } :=
    hs.quiet.of_progress rfl
  refine LWp.bind (LWp.of_get (LWp.ite (fun _ => LWp.of_pure (hs₁.ends _)) fun hon => ?_))
  simp only [Bool.or_eq_true, decide_eq_true_eq, not_or, ne_eq, not_not, ge_iff_le,
    Nat.not_le, Nat.lt_succ_iff] at hon
  obtain ⟨⟨hleads, hown⟩, hin⟩ := hon
  have hresponse := htimely hleads hown
  refine LWp.ite (fun hrej => ?_) fun hacc => ?_
  · refine LWp.bind (LWp.of_modify ?_)
    refine LWp.mono (Q := fun _ => Leads s) (lwp_appendToContext_leads ?_) fun _ _ => Or.inr
    split
    · rename_i hnext
      replace hnext : 1 < s.next m.fromID := hnext
      have horder : m.fromID ∈ s.peers → s.matchIndex m.fromID < s.next m.fromID - 1 ∧
          s.next m.fromID - 1 ≤ s.lastIndex + 1 := fun hp => by
        have hbound := (hs _ hp).2
        have hgap := (hresponse hp).rejected htype hrej hin
        omega
      have hadv := hs₁.toAdvanced.updateNext (p := m.fromID) (s.next m.fromID - 1) horder
      exact Quiet.leads { hadv with silent := hs₁.silent }
    · exact hs₁.leads
  · have hadv := hs₁.toAdvanced.update (p := m.fromID) (m.matchIndex + 1) m.matchIndex
      (fun _ => ⟨Nat.lt_succ_self _, Nat.succ_le_succ hin⟩)
      fun hp => (hresponse hp).acknowledged htype (Bool.eq_false_iff.mpr hacc) hin
    have hs₂ : Quiet s { s with
      readAckMask := acks, readIndex := index, readReady := ready
      next := update s.next m.fromID (m.matchIndex + 1)
      matchIndex := update s.matchIndex m.fromID m.matchIndex } := { hadv with silent := hs₁.silent }
    refine LWp.bind (LWp.of_modify (LWp.bind (lwp_advanceCommit_leads hs₂ (fun s₃ hs₃ => ?_)
      fun s' hs' => LWp.of_pure (Or.inl hs'))))
    exact LWp.bind (LWp.of_get (LWp.ite (fun _ => LWp.of_pure (Or.inr hs₃)) fun _ =>
      LWp.ite (fun _ => (lwp_appendToContext_leads hs₃).mono fun _ _ => Or.inr) fun _ =>
        LWp.of_pure (Or.inr hs₃)))

omit [StableStore σ] in
theorem lwp_onInstallSnapshotResponse_leads (hs : s.Ordered)
    (htype : m.type = .installSnapshotResponse) (htimely : s.Timely (.step m)) :
    LWp {} (onInstallSnapshotResponse m) (EndsLeading s) s := by
  refine lwp_onInstallSnapshotResponse False.elim False.elim (hs.quiet.ends _)
    fun hleads hown hacc t ht => ?_
  have hs₁ : Quiet s t := by
    rcases ht with rfl | ⟨hmore, rfl⟩
    · exact hs.quiet
    · have hadv := hs.quiet.toAdvanced.update (p := m.fromID) (m.matchIndex + 1) m.matchIndex
        (fun hp => ⟨Nat.lt_succ_self _,
          Nat.succ_le_succ ((htimely hleads hown hp).installed htype hacc)⟩)
        fun _ => Nat.le_of_lt hmore
      exact { hadv with silent := rfl }
  exact ⟨hs₁.ends _, (lwp_appendToContext_leads hs₁.leads).mono fun _ _ => Or.inr⟩

end Responses

/-! ## Nodes that do not lead -/

section Aside

def Aside (s : Node σ) : Prop := s.state ≠ .leader

theorem Node.Stopped.aside (hs : s.Stopped) : Aside s := by
  rw [Aside, hs.follows]
  exact State.noConfusion

/-- A node that does not lead does not take the lead. -/
def StaysAside (_ : Nat) (s t : Node σ) : Prop := Aside s → Aside t

instance : Effect (StaysAside (σ := σ)) where
  trans h₁ h₂ hs := h₂ (h₁ hs)
  mono h _ := h
  same _ hstate hs h := hs (hstate h)
  ensurePeers s mask hs := by
    obtain ⟨_, _, _, heq⟩ := ensurePeers_eq mask s
    rw [heq]
    exact hs
  send _ _ hs := hs
  halt _ hs := hs
  peers h := h

instance : Applies (StaysAside (σ := σ)) where
  applied _ _ hs := hs

theorem Within.aside {k : Nat} {f : NodeM σ α} (hf : Within StaysAside k f s) (hs : Aside s) :
    LWp {} f (fun _ => Aside) s := LWp.of_within hf id fun _ _ h => h hs

variable [StableStore σ]

instance : Stores (StaysAside (σ := σ)) where
  hard _ hs := hs
  append _ _ _ hs := hs
  save _ _ _ hs := hs
  cut _ _ _ hs := hs

/-- An accepted append makes the node a follower. -/
theorem lwp_accepted_aside {answer : Message} : LWp {} (do
    modify fun n : Node σ => { n with state := .follower, leader := m.fromID, elapsed := 0 }
    if !(← storeEntry m) then return
    if !(← followCommit m) then return
    send answer) (fun _ => Aside) s := by
  refine LWp.bind (LWp.of_modify (Within.aside (k := 1) ?_ State.noConfusion))
  exact (within_storeEntry m).then_ fun _ _ => Within.of_ite Within.of_pure
    ((within_followCommit m).then_ fun _ _ => Within.of_ite Within.of_pure Within.sent)

/-- A snapshot that is not refused makes the node a follower. -/
theorem lwp_installed_aside (hm : s.rejectsSnapshot m = false) :
    LWp {} (onInstallSnapshot m) (fun _ => Aside) s := by
  have hend : ∀ s₁ : Node σ, LWp {} (do
      modify fun n : Node σ => { n with state := .follower, leader := m.fromID, elapsed := 0 }
      let n ← get
      send {
        type := .installSnapshotResponse, fromID := n.id, toID := m.fromID, term := n.term
        matchIndex := n.baseIndex }) (fun _ => Aside) s₁ := fun s₁ =>
    LWp.bind (LWp.of_modify (LWp.bind (LWp.of_get (Within.sent.aside State.noConfusion))))
  refine LWp.bind (LWp.of_get (LWp.ite (fun hrej => absurd (hm.symm.trans hrej) Bool.false_ne_true)
    fun _ => LWp.bind (LWp.bind (LWp.of_get ?_))))
  exact LWp.ite (fun _ => LWp.of_pure (hend s)) fun _ => LWp.bind (lwp_saveAndCompact
    (fun store => LWp.bind (LWp.of_modify (LWp.of_pure (hend _)))) fun s' hs' =>
      LWp.of_pure (LWp.of_pure hs'.aside))

end Aside

/-! ## Elections -/

section Crowned

/-- A node that leads has its indexes in order. -/
def Crowned (s : Node σ) : Prop := s.state = .leader → s.Ordered

theorem Aside.crowned (hs : Aside s) : Crowned s := fun h => absurd h hs

theorem Node.Stopped.crowned (hs : s.Stopped) : Crowned s := hs.aside.crowned

/-- A new leader has its indexes in order. -/
theorem ordered_resetProgress (s : Node σ) :
    (s.peers.foldl (Node.resetProgress (s.lastIndex + 1)) s).Ordered := by
  -- the loop sets the indexes of the peers that it has passed, and nothing else
  have hloop : ∀ (l : List Nat) (next : Nat) (t : Node σ), ∃ next' match',
      l.foldl (Node.resetProgress next) t = { t with next := next', matchIndex := match' } ∧
      ∀ p, p ∈ l ∨ t.next p = next ∧ t.matchIndex p = 0 → next' p = next ∧ match' p = 0 := by
    intro l next
    induction l with
    | nil => exact fun t => ⟨t.next, t.matchIndex, rfl, fun p hp => hp.resolve_left List.not_mem_nil⟩
    | cons q l ih =>
      intro t
      obtain ⟨next', match', heq, hset⟩ := ih (t.resetProgress next q)
      refine ⟨next', match', heq, fun p hp => hset p ?_⟩
      by_cases hpq : p = q
      · exact Or.inr (by simp [Node.resetProgress, hpq])
      · refine hp.imp (fun hp => (List.mem_cons.mp hp).resolve_left hpq) fun hp => ?_
        simpa [Node.resetProgress, hpq] using hp
  obtain ⟨next', match', heq, hset⟩ := hloop s.peers (s.lastIndex + 1) s
  rw [heq]
  intro p hp
  obtain ⟨hnext, hmatch⟩ := hset p (Or.inl hp)
  show match' p < next' p ∧ next' p ≤ s.lastIndex + 1
  omega

variable [StableStore σ]

theorem lwp_becomeLeader_crowned : LWp {} becomeLeader (fun _ => Crowned) s := by
  refine LWp.bind (LWp.of_modify (LWp.bind (LWp.of_get (LWp.bind ?_))))
  -- whatever the appended entry changes, the indexes are set afterwards
  have happend : LWp {} (appendLocal { term := s.term, kind := .noop })
      (fun ok s' => ok = false → s'.Stopped) { s with state := .leader, leader := s.id, elapsed := 0 } := by
    refine LWp.bind (LWp.of_get (LWp.bind (lwp_tryStore (fun store => ?_) fun s' hs' =>
      LWp.of_pure fun _ => hs')))
    refine LWp.bind (LWp.of_modify (LWp.bind (lwp_ask False.elim fun _ _ => LWp.bind
      (lwp_ask False.elim fun _ _ => LWp.ite (fun _ => LWp.of_pure (nomatch ·)) fun _ => ?_))))
    refine LWp.bind (LWp.of_get (LWp.bind (LWp.of_modify (LWp.bind (lwp_tryStore (fun store => ?_)
      fun s' hs' => LWp.bind (LWp.of_modify (LWp.of_pure fun _ => { hs' with })))))))
    exact LWp.bind (lwp_iff.mpr fun _ _ _ => LWp.of_pure (nomatch ·))
  refine happend.mono fun ok s₁ hfailed => LWp.ite (fun hno => LWp.of_pure ?_) fun _ => ?_
  · exact (hfailed (by simpa using hno)).crowned
  · refine LWp.bind (LWp.of_modify ?_)
    exact (lwp_broadcastAppend_leads (ordered_resetProgress s₁).quiet.leads).mono
      fun _ _ hs₂ _ => hs₂.ordered

theorem lwp_startElection_crowned : LWp {} startElection (fun _ => Crowned) s := by
  refine LWp.bind (LWp.of_get (LWp.bind (lwp_tryStore (fun store => ?_) fun s' hs' =>
    LWp.of_pure hs'.crowned)))
  refine lwp_campaign (I := Aside) False.elim False.elim (fun _ => Within.aside (Within.forM fun _ _ =>
    Within.of_ask fun _ => Within.sent) ?_) (fun _ h => h.crowned) fun _ _ => lwp_becomeLeader_crowned
  exact State.noConfusion

theorem lwp_startPreVote_crowned (hs : Aside s) : LWp {} startPreVote (fun _ => Crowned) s := by
  refine lwp_campaign (I := Aside) False.elim False.elim (fun _ => Within.aside (Within.forM fun _ _ =>
    Within.of_ask fun _ => Within.sent) ?_) (fun _ h => h.crowned) fun _ _ => lwp_startElection_crowned
  exact hs

theorem lwp_onPreVoteResponse_crowned (hs : Aside s) :
    LWp {} (onPreVoteResponse m) (fun _ => Crowned) s := by
  exact lwp_onPreVoteResponse False.elim False.elim (fun _ => Aside.crowned hs) fun _ _ =>
    lwp_startElection_crowned

theorem lwp_onVoteResponse_crowned (hs : Aside s) :
    LWp {} (onVoteResponse m) (fun _ => Crowned) s := by
  exact lwp_onVoteResponse False.elim False.elim (fun _ => Aside.crowned hs) fun _ =>
    lwp_becomeLeader_crowned

theorem lwp_onTimeoutNow_crowned (hs : Aside s) : LWp {} (onTimeoutNow m) (fun _ => Crowned) s :=
  LWp.bind (LWp.of_get (LWp.ite (fun _ => lwp_startElection_crowned) fun _ =>
    LWp.of_pure hs.crowned))

/-! ## Terms -/

/-- The term does not fall. -/
def Rising (_ : Nat) (s t : Node σ) : Prop := s.term ≤ t.term

instance : Effect (Rising (σ := σ)) where
  trans h₁ h₂ := Nat.le_trans h₁ h₂
  mono h _ := h
  same hframe _ := by
    simp only [Node.frame, Prod.mk.injEq] at hframe
    exact Nat.le_of_eq hframe.2.1.symm
  ensurePeers s mask := by
    obtain ⟨_, _, _, heq⟩ := ensurePeers_eq mask s
    rw [heq]
    exact Nat.le_refl s.term
  send _ _ := Nat.le_refl _
  halt _ := Nat.le_refl _
  peers h := h

instance : Applies (Rising (σ := σ)) where
  applied _ _ := Nat.le_refl _

instance : Rises (Rising (σ := σ)) := Rises.of_free fun _ _ _ hterm => hterm

omit [StableStore σ] in
/-- A handler run by a node that does not lead. -/
theorem lwp_crowned_of {f : NodeM σ α} {k : Nat} (hw : LWp {} f (fun _ => Crowned) s)
    (hrises : Within Rising k f s) : LWp {} f (fun _ s' => Crowned s' ∧ s.term ≤ s'.term) s :=
  lwp_iff.mpr fun _ _ hf => ⟨hw.elim hf, hrises.elim hf⟩

/-- A handler that takes no lead either. -/
theorem lwp_crowned_of_aside {f : NodeM σ α} {k : Nat} (hs : Aside s)
    (hf : ∀ {R : Nat → Node σ → Node σ → Prop} [Stores R] [Applies R], Within R k f s) :
    LWp {} f (fun _ s' => Crowned s' ∧ s.term ≤ s'.term) s :=
  lwp_crowned_of ((hf.aside hs).mono fun _ _ h => h.crowned) hf

end Crowned

/-! ## Operations -/

section Operations

/-- What an operation does to the indexes. -/
structure Progresses (s s' : Node σ) : Prop where
  crowned : Crowned s'
  kept : s.state = .leader → s'.state = .leader → s'.term = s.term → Advanced s s' ∧
    ∃ new, s'.outbound <:+ s.outbound ++ new ∧ ∀ m ∈ new, s'.Due m

theorem EndsLeading.progresses {a : α} (h : EndsLeading s a s') : Progresses s s' := by
  rcases h with hs' | hs'
  · exact ⟨hs'.crowned, fun _ hleads => absurd hleads hs'.aside⟩
  · obtain ⟨new, hout, hdue⟩ := hs'.sent
    exact ⟨fun _ => hs'.ordered, fun _ _ _ => ⟨hs'.toAdvanced, new, hout ▸ List.suffix_rfl, hdue⟩⟩

theorem Aside.progresses (h : Aside s') : Progresses s s' :=
  ⟨h.crowned, fun _ hleads => absurd hleads h⟩

theorem Crowned.progresses (h : Crowned s') (hs : Aside s) : Progresses s s' :=
  ⟨h, fun hleads => absurd hleads hs⟩

variable [StableStore σ]

/-- A message whose term is adopted, or that finds no leader. -/
theorem lwp_handle_crowned (hs : Aside s) : LWp {} (match m.type with
    | .preVote => onPreVote m
    | .preVoteResponse => onPreVoteResponse m
    | .requestVote => onVote m
    | .requestVoteResponse => onVoteResponse m
    | .append => onAppend m
    | .appendResponse => onAppendResponse m
    | .installSnapshot => onInstallSnapshot m
    | .installSnapshotResponse => onInstallSnapshotResponse m
    | .timeoutNow => onTimeoutNow m
    | .other _ => return) (fun _ s' => Crowned s' ∧ s.term ≤ s'.term) s := by
  cases m.type with
  | preVote => exact lwp_crowned_of_aside hs (within_onPreVote m)
  | preVoteResponse =>
    exact lwp_crowned_of (lwp_onPreVoteResponse_crowned hs) (within_onPreVoteResponse m)
  | requestVote => exact lwp_crowned_of_aside hs (within_onVote m)
  | requestVoteResponse =>
    exact lwp_crowned_of (lwp_onVoteResponse_crowned hs) (within_onVoteResponse m)
  | append => exact lwp_crowned_of_aside hs (within_onAppend m)
  | appendResponse => exact lwp_crowned_of_aside hs (within_onAppendResponse m)
  | installSnapshot => exact lwp_crowned_of_aside hs (within_onInstallSnapshot m)
  | installSnapshotResponse => exact lwp_crowned_of_aside hs (within_onInstallSnapshotResponse m)
  | timeoutNow => exact lwp_crowned_of (lwp_onTimeoutNow_crowned hs) (within_onTimeoutNow m)
  | other code => exact LWp.of_pure ⟨hs.crowned, Nat.le_refl _⟩

theorem lwp_step_progresses (hs : Crowned s)
    (hop : s.faulted = false → s.Timely (.step m)) :
    LWp {} (step m) (fun _ => Progresses s) s := by
  have hsame : Progresses s s := by
    by_cases hleads : s.state = .leader
    · exact ((hs hleads).quiet.ends ()).progresses
    · exact Aside.progresses hleads
  refine LWp.bind (LWp.of_get (LWp.ite (fun _ => LWp.of_pure hsame) fun hrunning => ?_))
  have htimely := hop (Bool.eq_false_iff.mpr hrunning)
  refine LWp.bind (lwp_adoptTerm (fun s₁ _ hadopts => ?_) fun s' hs' => LWp.of_pure hs'.aside.progresses)
  rcases hadopts with ⟨rfl, hterm⟩ | ⟨_, hlt, hfollows, hterm⟩
  · by_cases hleads : s₁.state = .leader
    · -- the leader handles the message in its own term
      have hquiet := (hs hleads).quiet
      have hends : ∀ {f : NodeM σ Unit}, LWp {} f (EndsLeading s₁) s₁ →
          LWp {} f (fun _ => Progresses s₁) s₁ := fun hw => hw.mono fun _ _ h => h.progresses
      cases htype : m.type with
      | preVote =>
        exact hends (lwp_onPreVote False.elim False.elim fun _ =>
          lwp_send_answer hquiet MessageType.noConfusion MessageType.noConfusion)
      | preVoteResponse =>
        exact LWp.bind (LWp.of_get (LWp.ite (fun _ => LWp.of_pure hsame) fun h => absurd hleads h))
      | requestVote =>
        refine hends (lwp_onVote False.elim False.elim ?_ (LWp.bind ?_))
        · exact lwp_send_answer hquiet MessageType.noConfusion MessageType.noConfusion
        · refine lwp_tryStore (fun store => LWp.bind (LWp.of_modify ?_)) fun s' hs' =>
            LWp.of_pure (Or.inl hs')
          exact lwp_send_answer (hquiet.of_progress rfl) MessageType.noConfusion
            MessageType.noConfusion
      | requestVoteResponse =>
        exact LWp.bind (LWp.of_get (LWp.ite (fun _ => LWp.of_pure hsame) fun h =>
          absurd (fun hc => State.noConfusion (hleads.symm.trans hc)) h))
      | append =>
        refine LWp.bind (LWp.of_get (LWp.ite (fun _ => hends ?_) fun _ => ?_))
        · exact lwp_send_answer hquiet MessageType.noConfusion MessageType.noConfusion
        · exact lwp_accepted_aside.mono fun _ _ h => h.progresses
      | appendResponse => exact hends (lwp_onAppendResponse_leads (hs hleads) htype htimely)
      | installSnapshot =>
        cases hrej : s₁.rejectsSnapshot m with
        | false => exact (lwp_installed_aside hrej).mono fun _ _ h => h.progresses
        | true =>
          refine LWp.bind (LWp.of_get (LWp.ite (fun _ => hends ?_) fun h => absurd hrej h))
          exact lwp_send_answer hquiet MessageType.noConfusion MessageType.noConfusion
      | installSnapshotResponse =>
        exact hends (lwp_onInstallSnapshotResponse_leads (hs hleads) htype htimely)
      | timeoutNow =>
        refine LWp.bind (LWp.of_get (LWp.ite (fun h => ?_) fun _ => LWp.of_pure hsame))
        simp [hleads] at h
      | other code => exact LWp.of_pure hsame
    · exact (lwp_handle_crowned hleads).mono fun _ _ h => h.1.progresses hleads
  · -- the term is adopted, and does not fall again
    have haside : Aside s₁ := by
      rw [Aside, hfollows]
      exact State.noConfusion
    refine (lwp_handle_crowned haside).mono fun _ s' h => ⟨h.1, fun _ _ hsame => ?_⟩
    have := h.2
    omega

/-- The entry of a client. -/
theorem lwp_proposeEntry_leads {e : Entry} (hs : Quiet s₀ s) : LWp {} (do
    if !(← appendLocal e) then return false
    broadcastAppend
    return true) (EndsLeading s₀) s := by
  refine LWp.bind (lwp_appendLocal_quiet hs (fun s₁ hs₁ => LWp.bind ?_) fun s' hs' =>
    LWp.of_pure (Or.inl hs'))
  exact (lwp_broadcastAppend_leads hs₁.leads).mono fun _ _ hs₂ => LWp.of_pure (Or.inr hs₂)

/-- The entry of a change of voters. -/
theorem lwp_proposeConfig_leads {e : Entry} (hs : Quiet s₀ s) : LWp {} (do
    if !(← appendLocal e) then return false
    modify fun n : Node σ => { n with pendingConfig := n.lastIndex }
    broadcastAppend
    return true) (EndsLeading s₀) s := by
  refine LWp.bind (lwp_appendLocal_quiet hs (fun s₁ hs₁ => LWp.bind (LWp.of_modify (LWp.bind ?_)))
    fun s' hs' => LWp.of_pure (Or.inl hs'))
  exact (lwp_broadcastAppend_leads (s := { s₁ with pendingConfig := s₁.lastIndex })
    (Quiet.leads (hs₁.of_progress rfl))).mono fun _ _ hs₂ => LWp.of_pure (Or.inr hs₂)

theorem lwp_proposeJoint_leads {ids : List Nat} (hs : s.Ordered) :
    LWp {} (proposeJoint ids) (EndsLeading s) s := by
  refine LWp.bind (lwp_ask False.elim fun mask _ => ?_)
  cases mask with
  | none => exact LWp.of_pure (hs.quiet.ends _)
  | some mask =>
    refine LWp.bind (LWp.of_get (LWp.ite (fun _ => LWp.of_pure (hs.quiet.ends _)) fun _ =>
      LWp.bind (LWp.of_modify ?_)))
    exact lwp_proposeConfig_leads (hs.quiet.ensurePeers mask)

/-- A leader goes through an operation other than a message. -/
theorem lwp_exec_leads {op : Op} (hleads : s.state = .leader) (hs : s.Ordered)
    (hstep : ∀ m, op ≠ .step m) : LWp {} op.exec (fun _ => Progresses s) s := by
  have hend : ∀ {β : Type} {f : NodeM σ β} (g : β → Output), LWp {} f (EndsLeading s) s →
      LWp {} (do return g (← f)) (fun _ => Progresses s) s := fun g hw =>
    LWp.map g (hw.mono fun _ _ hs' => hs'.progresses)
  have hsame : ∀ {β : Type} (b : β), EndsLeading s b s := hs.quiet.ends
  cases op with
  | tick =>
    refine hend (fun _ => .nothing) (lwp_tick (fun _ => Or.inr (Quiet.leads (hs.quiet.of_progress rfl)))
      (fun _ => ?_) (absurd hleads))
    exact LWp.mono (lwp_broadcastAppend_leads (Quiet.leads (hs.quiet.of_progress rfl))) fun _ _ => Or.inr
  | step m => exact absurd rfl (hstep m)
  | propose command =>
    exact hend .accepted (LWp.bind (LWp.of_get (LWp.ite (fun _ => LWp.of_pure (hsame _)) fun _ =>
      lwp_proposeEntry_leads hs.quiet)))
  | proposeRequest operation clientID requestID key value =>
    exact hend .accepted (LWp.bind (LWp.of_get (LWp.ite (fun _ => LWp.of_pure (hsame _)) fun _ =>
      lwp_proposeEntry_leads hs.quiet)))
  | proposeJoint ids => exact hend .accepted (lwp_proposeJoint_leads hs)
  | proposeFinal =>
    exact hend .accepted (LWp.bind (LWp.of_get (LWp.ite (fun _ => LWp.of_pure (hsame _)) fun _ =>
      lwp_proposeConfig_leads hs.quiet)))
  | transferLeadership target =>
    refine hend .accepted (lwp_transferLeadership False.elim False.elim (hsame _) ?_ ?_)
    · exact (lwp_appendToContext_leads hs.quiet.leads).mono fun _ _ => Or.inr
    · exact (lwp_send_leads hs.quiet.leads (due_of_answer MessageType.noConfusion
        MessageType.noConfusion)).mono fun _ _ => Or.inr
  | startReadIndex context =>
    refine hend .accepted (lwp_startReadIndex False.elim (hsame _) fun _ _ _ _ => ?_)
    refine LWp.mono (LWp.forM (I := Leads s) (fun p _ s' hs' => lwp_appendToContext_leads hs') ?_)
      fun _ _ => Or.inr
    exact Quiet.leads (hs.quiet.of_progress rfl)
  | applyEntries =>
    refine hend .entries (lwp_iff.mpr fun out s' hrun => ?_)
    obtain ⟨rfl, _⟩ := applyEntries_ok hrun
    exact Or.inr (Quiet.leads (hs.quiet.of_progress rfl))
  | compact index state =>
    refine hend .accepted (lwp_iff.mpr fun ok s' hrun => ?_)
    cases compact_ok hrun with
    | refused => exact hsame _
    | stopped hstopped _ => exact Or.inl hstopped
    | compacted _ _ hterm => exact Or.inr (Quiet.leads ((hs.quiet.drop hterm).of_progress rfl))
  | drain =>
    refine LWp.of_ok rfl ⟨fun _ => hs, fun _ _ _ => ⟨⟨hs, fun p hp => ⟨hp, Nat.le_refl _⟩⟩, [], ?_, ?_⟩⟩
    · exact List.nil_suffix
    · exact fun _ h => nomatch h

/-- A node that does not lead goes through an operation other than a message. -/
theorem lwp_exec_aside {op : Op} (hs : Aside s) (hstep : ∀ m, op ≠ .step m) :
    LWp {} op.exec (fun _ => Crowned) s := by
  have hrefused : op.ForLeader → LWp {} op.exec (fun _ => Crowned) s :=
    fun hop => LWp.of_final (exec_refused hop hs) id hs.crowned
  have haside : ∀ {β : Type} {f : NodeM σ β} {k : Nat}, Within StaysAside k f s →
      LWp {} f (fun _ => Crowned) s := fun hf => (hf.aside hs).mono fun _ _ h => h.crowned
  cases op with
  | tick =>
    exact LWp.map _ (lwp_tick (fun _ => Aside.crowned hs) (absurd · hs) fun _ _ =>
      lwp_startPreVote_crowned hs)
  | step m => exact absurd rfl (hstep m)
  | applyEntries => exact LWp.map _ (haside within_applyEntries)
  | compact index state => exact LWp.map _ (haside (within_compact index state))
  | drain => exact LWp.of_ok rfl (Aside.crowned hs)
  | _ => exact hrefused trivial

/-- One operation. -/
theorem exec_progresses {op : Op} {out : Output} (hs : Crowned s)
    (hop : s.faulted = false → s.Timely op)
    (hexec : op.exec s = .ok out s') : Progresses s s' := by
  by_cases hstep : ∃ m, op = .step m
  · obtain ⟨m, rfl⟩ := hstep
    refine LWp.elim (W := {}) (Q := fun _ => Progresses s) ?_ hexec
    exact LWp.bind ((lwp_step_progresses hs hop).mono fun _ _ h => LWp.of_pure h)
  · replace hstep : ∀ m, op ≠ .step m := fun m h => hstep ⟨m, h⟩
    by_cases hleads : s.state = .leader
    · exact (lwp_exec_leads hleads (hs hleads) hstep).elim hexec
    · exact ((lwp_exec_aside hleads hstep).elim hexec).progresses hleads

end Operations

/-! ## Runs -/

section Runs

theorem within_restoreSnapshot_aside {hard : HardState} {snapshot : Snapshot}
    {suffix : List Entry} : Within StaysAside 0 (restoreSnapshot hard snapshot suffix) s := by
  refine Within.of_modify id (Within.of_ite Within.stopped (Within.of_modify
    (Effect.ensurePeers _ _) ?_))
  generalize Node.ensurePeers _ _ = t
  exact Within.of_modify id within_restore

/-- A node that is rebuilt does not lead. -/
theorem recover_aside {id timeout : Nat} {peers : List Nat} {store : σ} {recovery : Recovery}
    (h : recover id peers timeout store recovery = .ok s) : Aside s := by
  unfold recover at h
  split at h
  · obtain ⟨n, hn, h⟩ := bind_eq_ok.mp h
    obtain ⟨voters, _, rfl⟩ := newNodeWithStore_cases hn
    refine LWp.elim (within_restoreSnapshot_aside.aside ?_) (built_eq_ok h)
    exact State.noConfusion
  · obtain ⟨n, hn, h⟩ := bind_eq_ok.mp h
    obtain ⟨voters, _, rfl⟩ := newNodeWithStore_cases hn
    refine LWp.elim (within_restore.aside ?_) (built_eq_ok h)
    exact State.noConfusion

variable [OpenStore σ]

/-- Through operations and restarts, a node that leads has its indexes in order. -/
theorem Proc.run_crowned {id timeout : Nat} {peers : List Nat} {store : σ} {n : Node σ}
    {events : List Proc.Event} (hnew : newNodeWithStore id peers timeout store = .ok n)
    (htimely : Runs.Always (Proc.next id) (Proc.Meets Node.Timely) (.up n) events)
    (hrun : Runs.run (Proc.next id) (.up n) events = some (.up s)) : Crowned s := by
  refine Runs.run_invariant (I := fun p : Proc σ => ∀ s, p = .up s → Crowned s)
    (fun p ev p' hp hev hnext s hs => ?_) (fun s hs => ?_) htimely hrun s rfl
  · cases ev with
    | op op =>
      cases p with
      | absent => cases hnext
      | down n => cases hnext
      | up n =>
        cases hexec : op.exec n with
        | error e n' =>
          simp only [Proc.next, hexec, Option.some.injEq] at hnext
          rw [hs] at hnext
          cases hnext
        | ok out n' =>
          simp only [Proc.next, hexec, Option.some.injEq] at hnext
          rw [hs] at hnext
          cases hnext
          exact (exec_progresses (hp n rfl) (hev n rfl) hexec).crowned
    | restart peers timeout =>
      obtain ⟨_, _, _, s', _, _, hrec, hs'⟩ := Proc.next_restart hnext
      rw [hs] at hs'
      cases hs'
      exact (recover_aside hrec).crowned
  · cases hs
    obtain ⟨voters, _, rfl⟩ := newNodeWithStore_cases hnew
    exact Aside.crowned State.noConfusion

/-- A leader has its indexes in order. As long as it goes on leading in its term, an operation
lowers no acknowledged index, and sends no peer what it has acknowledged. The responses of peers
in the leader's own term are timely, in all of the run: an accepted append does not acknowledge
less than `Match` (an old response that was delayed would), a rejected one comes while the next
index is more than one above `Match`, or is at most 1, and a snapshot is not acknowledged beyond
the log. -/
theorem replication_progress_is_monotone {id timeout : Nat} {peers : List Nat} {store : σ}
    {n : Node σ} {events : List Proc.Event} (hnew : newNodeWithStore id peers timeout store = .ok n)
    (htimely : Runs.Always (Proc.next id) (Proc.Meets Node.Timely) (.up n) events)
    (hrun : Runs.run (Proc.next id) (.up n) events = some (.up s)) (hleads : s.state = .leader) :
    s.Ordered ∧ ∀ op out s', s.Timely op → op.exec s = .ok out s' → s'.state = .leader →
      s'.term = s.term → s'.Ordered ∧
      (∀ p ∈ s.peers, p ∈ s'.peers ∧ s.matchIndex p ≤ s'.matchIndex p) ∧
      ∃ new, s'.outbound <:+ s.outbound ++ new ∧ ∀ m ∈ new, s'.Due m := by
  have hs := Proc.run_crowned hnew htimely hrun
  refine ⟨hs hleads, fun op out s' hop hexec hleads' hterm => ?_⟩
  obtain ⟨hadvanced, hsent⟩ := (exec_progresses hs (fun _ => hop) hexec).kept hleads hleads' hterm
  exact ⟨hadvanced.ordered, hadvanced.grew, hsent⟩

end Runs

/-! The leader of three nodes has the entry of its election, and then another one, acknowledged
by the second node. -/

def ledNode : Node Disk where
  id := 1
  peers := [2, 3]
  timeout := 1
  votersOld := 7
  store := {}

def acknowledge (index : Nat) : Message :=
  { type := .appendResponse, fromID := 2, toID := 1, term := 1, matchIndex := index }

def acknowledgedRun : List Proc.Event := [
  .op .tick, .op (.step { type := .preVoteResponse, fromID := 2, toID := 1, term := 1 }),
  .op (.step { type := .requestVoteResponse, fromID := 2, toID := 1, term := 1 }),
  .op (.step (acknowledge 1)), .op (.propose 7), .op (.step (acknowledge 2)), .op .drain]

/-- The operation goes through, and the leader goes on leading in its term. -/
def GoesOn (s : Node Disk) (op : Op) (q : Node Disk → Bool) : Bool :=
  match op.exec s with
  | .ok _ s' => s'.state = .leader && s'.term = s.term && q s'
  | .error .. => false

theorem goesOn {s : Node Disk} {op : Op} {q : Node Disk → Bool} (h : GoesOn s op q = true) :
    ∃ out s', op.exec s = .ok out s' ∧ s'.state = .leader ∧ s'.term = s.term ∧ q s' = true := by
  unfold GoesOn at h
  cases hexec : op.exec s with
  | error e s' =>
    rw [hexec] at h
    cases h
  | ok out s' =>
    simp only [hexec, Bool.and_eq_true, decide_eq_true_eq] at h
    exact ⟨out, s', rfl, h.1.1, h.1.2, h.2⟩

theorem replication_progress_is_monotone_acknowledged : ∃ (s s' : Node Disk) (out : Output),
    Runs.run (Proc.next 1) (.up ledNode) acknowledgedRun = some (.up s) ∧ s.Ordered ∧
    Op.exec (.step (acknowledge 2)) s = .ok out s' ∧ s'.Ordered ∧
    s.matchIndex 2 ≤ s'.matchIndex 2 := by
  have htimely : Runs.Always (Proc.next 1) (Proc.Meets Node.Timely) (.up ledNode)
      acknowledgedRun := by decide +kernel
  obtain ⟨_, hrun, s, rfl, hleads, hpeer, hop, hgoes⟩ := Runs.run_check (Proc.next 1) (.up ledNode)
    acknowledgedRun (fun p => ∃ s, p = .up s ∧ s.state = .leader ∧ 2 ∈ s.peers ∧
      s.Timely (.step (acknowledge 2)) ∧ GoesOn s (.step (acknowledge 2)) (fun _ => true) = true)
      (by decide +kernel)
  obtain ⟨out, s', hexec, hleads', hterm, _⟩ := goesOn hgoes
  have hnew : newNodeWithStore 1 [2, 3] 1 ({} : Disk) = .ok ledNode := rfl
  obtain ⟨hs, hnext⟩ := replication_progress_is_monotone hnew htimely hrun hleads
  obtain ⟨hs', hgrew, _⟩ := hnext _ out s' hop hexec hleads' hterm
  exact ⟨s, s', out, hrun, hs, hexec, hs', (hgrew 2 hpeer).2⟩

/-- The first acknowledgement comes a second time, or a rejection comes late. The one lowers
the acknowledged index, the other the next one to it, and both times the leader sends again
what is acknowledged. -/
theorem late_response_undoes_progress : newNodeWithStore 1 [2, 3] 1 ({} : Disk) = .ok ledNode ∧
    ∃ s : Node Disk,
    Runs.run (Proc.next 1) (.up ledNode) acknowledgedRun = some (.up s) ∧ s.state = .leader ∧
    2 ∈ s.peers ∧ s.matchIndex 2 = 2 ∧ s.outbound = [] ∧
    (∃ out s', Op.exec (.step (acknowledge 1)) s = .ok out s' ∧ s'.state = .leader ∧
      s'.term = s.term ∧ s'.matchIndex 2 = 1 ∧
      s'.outbound.map (fun m => (m.type, m.toID, m.logIndex)) = [(.append, 2, 1)]) ∧
    ∃ out s', Op.exec (.step { acknowledge 1 with reject := true }) s = .ok out s' ∧
      s'.state = .leader ∧ s'.term = s.term ∧ ¬ s'.Ordered ∧
      s'.outbound.map (fun m => (m.type, m.toID, m.logIndex)) = [(.append, 2, 1)] := by
  obtain ⟨_, hrun, s, rfl, hleads, hpeer, hmatch, hout, hold, hlate⟩ := Runs.run_check
    (Proc.next 1) (.up ledNode) acknowledgedRun (fun p => ∃ s, p = .up s ∧ s.state = .leader ∧
      2 ∈ s.peers ∧ s.matchIndex 2 = 2 ∧ s.outbound = [] ∧
      GoesOn s (.step (acknowledge 1)) (fun s' => s'.matchIndex 2 = 1 &&
        s'.outbound.map (fun m => (m.type, m.toID, m.logIndex)) = [(.append, 2, 1)]) = true ∧
      GoesOn s (.step { acknowledge 1 with reject := true }) (fun s' => decide (2 ∈ s'.peers) &&
        s'.next 2 ≤ s'.matchIndex 2 &&
        s'.outbound.map (fun m => (m.type, m.toID, m.logIndex)) = [(.append, 2, 1)]) = true)
      (by decide +kernel)
  refine ⟨rfl, s, hrun, hleads, hpeer, hmatch, hout, ?_, ?_⟩
  · obtain ⟨out, s', hexec, hleads', hterm, hq⟩ := goesOn hold
    simp only [Bool.and_eq_true, decide_eq_true_eq] at hq
    exact ⟨out, s', hexec, hleads', hterm, hq.1, hq.2⟩
  · obtain ⟨out, s', hexec, hleads', hterm, hq⟩ := goesOn hlate
    simp only [Bool.and_eq_true, decide_eq_true_eq] at hq
    refine ⟨out, s', hexec, hleads', hterm, fun hs' => ?_, hq.2⟩
    have := (hs' 2 hq.1.1).1
    omega

end Promtact.Raft
