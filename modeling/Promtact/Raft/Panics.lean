import Promtact.Raft.Membership

/-!
# Steps that return

The handlers of votes, of the answers to them, of confirmations of a read and of answers to a
snapshot look up the bit of the sender, and `nodeBit` panics for an ID that is not that of a
node. Nothing else in `Step` panics while the indexes of the node are in order: not an append
that contradicts a committed entry, though it leaves the indexes in disorder, and not a
snapshot.

* A step that returns has asked for no other bit (`identifies_of_step`).
* A step that asks for no other bit returns (`lwp_step_returns`).
-/

namespace Promtact

namespace Raft

open Node (indexes)

variable {σ : Type} {s s' : Node σ} {m : Message}

/-- An answer is there only if the ID is that of a node. -/
theorem lwp_isVoter {α : Type} {id : Nat} {k : Bool → NodeM σ α} :
    LWp {} (do k (← ask (·.isVoter id))) (fun _ _ => 0 < id ∧ id ≤ 64) s := by
  refine LWp.bind (lwp_ask False.elim fun _ hb => lwp_iff.mpr fun _ _ _ => ?_)
  obtain ⟨_, _, hb⟩ := bind_eq_ok.mp hb
  obtain ⟨_, hbit, _⟩ := bind_eq_ok.mp hb
  obtain ⟨h0, h64, _⟩ := range_of_nodeBit hbit
  exact ⟨h0, h64⟩

variable [StableStore σ]

/-- The handler of the message comes to ask for the bit of its sender. The node runs, and it
has saved the term of a request for its vote, where that is a later one. -/
def Node.Asks (n : Node σ) (m : Message) : Prop :=
  n.faulted = false ∧ n.asksSender m = true ∧ (m.type = .requestVote → n.term < m.term →
    (StableStore.saveHardState { term := m.term, commit := n.commit } n.store).1 = none)

/-- The sender is a node, if the handler comes to ask for its bit. -/
def Node.Identifies (n : Node σ) (m : Message) : Prop := n.Asks m → 0 < m.fromID ∧ m.fromID ≤ 64

instance (n : Node σ) (m : Message) : Decidable (n.Identifies m) := by
  unfold Node.Identifies Node.Asks
  infer_instance

/-- A step that returns has not asked for the bit of somebody who is no node. -/
theorem identifies_of_step {u : Unit} (hstep : step m s = .ok u s') : s.Identifies m := by
  rintro ⟨hrun, hasks, hsaved⟩
  refine LWp.elim (W := {}) (Q := fun _ _ => 0 < m.fromID ∧ m.fromID ≤ 64) ?_ hstep
  refine LWp.bind (LWp.of_get (LWp.ite (fun h => absurd (hrun.symm.trans h) Bool.false_ne_true)
    fun _ => LWp.bind ?_))
  have hvote : ∀ t : Node σ, LWp {} (onVote m) (fun _ _ => 0 < m.fromID ∧ m.fromID ≤ 64) t := fun t =>
    LWp.bind (LWp.of_get (LWp.bind (LWp.bind (LWp.of_get (LWp.bind (lwp_ask False.elim fun _ _ =>
      LWp.of_pure lwp_isVoter))))))
  unfold Node.asksSender at hasks
  cases htype : m.type with
  | preVote =>
    exact LWp.of_ok (adoptTerm_eq (.inl htype)) (LWp.bind (LWp.of_get (LWp.bind (LWp.bind (LWp.of_get
      (LWp.bind (lwp_ask False.elim fun _ _ => LWp.of_pure lwp_isVoter)))))))
  | preVoteResponse =>
    rw [htype] at hasks
    exact LWp.of_ok (adoptTerm_eq (.inr (.inl htype))) (LWp.bind (LWp.of_get (LWp.ite
      (fun h => absurd h (by simpa using hasks)) fun _ => lwp_isVoter)))
  | requestVote =>
    rcases Nat.lt_or_ge s.term m.term with hlater | hown
    · refine LWp.bind (LWp.of_get (LWp.ite (fun _ => LWp.of_pure (hvote s)) fun _ => LWp.bind ?_))
      exact LWp.of_ok (tryStore_ok (hsaved htype hlater))
        (LWp.bind (LWp.of_modify (LWp.of_pure (hvote _))))
    · exact LWp.of_ok (adoptTerm_eq (.inr (.inr hown))) (hvote s)
  | requestVoteResponse =>
    rw [htype] at hasks
    simp only [Bool.and_eq_true, decide_eq_true_eq] at hasks
    exact LWp.of_ok (adoptTerm_eq (.inr (.inr hasks.1))) (LWp.bind (LWp.of_get (LWp.ite
      (fun h => absurd hasks.2 h) fun _ => lwp_isVoter)))
  | appendResponse =>
    rw [htype] at hasks
    have hterm : m.term = s.term := by
      simp only [Node.confirms, Bool.and_eq_true, decide_eq_true_eq] at hasks
      exact hasks.1.1.1.2
    refine LWp.of_ok (adoptTerm_eq (.inr (.inr (Nat.le_of_eq hterm)))) (LWp.bind ?_)
    refine LWp.mono (LWp.bind (LWp.of_get (LWp.ite (fun _ => lwp_isVoter) fun h => absurd hasks h)))
      fun _ _ h => lwp_iff.mpr fun _ _ _ => h
  | installSnapshotResponse =>
    rw [htype] at hasks
    simp only [Bool.and_eq_true, decide_eq_true_eq, Bool.not_eq_true'] at hasks
    exact LWp.of_ok (adoptTerm_eq (.inr (.inr (Nat.le_of_eq hasks.1.2)))) (LWp.bind (LWp.of_get (LWp.ite
      (fun h => absurd h (by simp [hasks])) fun _ => lwp_isVoter)))
  | append => rw [htype] at hasks; cases hasks
  | installSnapshot => rw [htype] at hasks; cases hasks
  | timeoutNow => rw [htype] at hasks; cases hasks
  | other c => rw [htype] at hasks; cases hasks

omit [StableStore σ] in
/-- A log that is cut back below the commit index holds nothing to look up. -/
theorem lwp_truncateConflict_below {i term : Nat} (hlo : s.baseIndex ≤ i) (hcommit : i + 1 ≤ s.commit) :
    LWp totalWatch (truncateConflict (i + 1) term) (fun _ t => t.commit = s.commit) s := by
  refine LWp.bind (LWp.of_get ?_)
  cases s.termAt (i + 1) with
  | none => exact LWp.of_pure rfl
  | some present =>
    refine LWp.ite (fun _ => LWp.bind (LWp.of_modify ?_)) fun _ => LWp.of_pure rfl
    refine LWp.bind (LWp.of_modify (LWp.bind (LWp.of_get ?_)))
    have hempty : indexes (max (s.commit + 1) (s.baseIndex + 1))
        (s.baseIndex + (s.log.take (i + 1 - s.baseIndex)).length - 1) = [] := by
      have := List.length_take_le (i + 1 - s.baseIndex) s.log
      unfold indexes
      rw [show s.baseIndex + (s.log.take (i + 1 - s.baseIndex)).length - 1 + 1 -
        max (s.commit + 1) (s.baseIndex + 1) = 0 by omega]
      rfl
    show LWp _ ((indexes (max (s.commit + 1) (s.baseIndex + 1))
      (s.baseIndex + (s.log.take (i + 1 - s.baseIndex)).length - 1)).forM _) _ _
    rw [hempty]
    exact LWp.of_pure rfl

/-- A node whose indexes are in order takes every append, also one that contradicts an entry
at or below its commit index. -/
theorem lwp_onAppend_returns (hl : Local totalWatch s) (htype : m.type = .append) :
    LWp totalWatch (onAppend m) (fun _ _ => True) s := by
  by_cases hkeep : s.KeepsCommitted m
  · exact (lwp_onAppend hl (fun _ => hkeep htype) fun _ _ _ _ _ _ _ _ => False.elim).mono
      fun _ _ _ => trivial
  unfold Node.KeepsCommitted at hkeep
  push Not at hkeep
  obtain ⟨_, _, hprev, hentry, hcommit, _⟩ := hkeep
  obtain ⟨hlo, _⟩ := termAt_inLog hprev
  have hsend : ∀ (answer : Message) (t : Node σ),
      LWp totalWatch (send answer) (fun _ _ => True) t := fun _ _ => lwp_send fun _ _ => trivial
  refine LWp.bind (LWp.of_get (LWp.ite (fun _ => hsend _ s) fun _ => ?_))
  refine LWp.bind (LWp.of_modify (LWp.bind ?_))
  -- the message does not reach beyond the commit index, which stays where it is
  have hend : ∀ (answer : Message) (ok : Bool) (t : Node σ), t.commit = s.commit →
      LWp totalWatch (do
        if !ok then return
        if !(← followCommit m) then return
        send answer) (fun _ _ => True) t := by
    intro answer ok t ht
    refine LWp.ite (fun _ => LWp.of_pure trivial) fun _ => LWp.bind (LWp.bind (LWp.of_get (LWp.ite
      (fun _ => LWp.of_pure (hsend answer t)) fun hmoves => absurd ?_ hmoves)))
    simp [ht]
    omega
  refine LWp.ite (fun h => absurd h (by simp [hentry])) fun _ => LWp.bind ?_
  refine LWp.mono (lwp_truncateConflict_below (by exact hlo) (by exact hcommit))
    fun _ t (ht : t.commit = s.commit) => LWp.bind (LWp.of_get ?_)
  refine LWp.ite (fun _ => LWp.of_pure (hend _ true t ht)) fun _ => LWp.bind (lwp_tryStore
    (fun store => LWp.bind (LWp.of_modify (LWp.ite (fun _ => ?_) fun _ => ?_))) fun s' _ => ?_)
  · refine LWp.bind (LWp.of_modify (LWp.bind (LWp.of_modify (LWp.of_pure (hend _ true _ ?_)))))
    exact (ensurePeers_frame (·.commit) (fun _ _ _ _ => rfl) _ _).trans ht
  · exact LWp.of_pure (hend _ true _ ht)
  · exact LWp.of_pure (LWp.of_pure trivial)

theorem lwp_onInstallSnapshot_returns :
    LWp totalWatch (onInstallSnapshot m) (fun _ _ => True) s := by
  refine LWp.bind (LWp.of_get (LWp.ite (fun _ => lwp_send fun _ _ => trivial) fun _ => LWp.bind ?_))
  have hend : ∀ t : Node σ, LWp totalWatch (do
      modify fun n : Node σ => { n with state := .follower, leader := m.fromID, elapsed := 0 }
      let n ← get
      send { type := .installSnapshotResponse, fromID := n.id, toID := m.fromID, term := n.term
             matchIndex := n.baseIndex }) (fun _ _ => True) t := fun t =>
    LWp.bind (LWp.of_modify (LWp.bind (LWp.of_get (lwp_send fun _ _ => trivial))))
  refine LWp.bind (LWp.of_get (LWp.ite (fun _ => LWp.of_pure (hend s)) fun _ => LWp.bind ?_))
  exact lwp_saveAndCompact (fun store => LWp.bind (LWp.of_modify (LWp.of_pure (hend _))))
    fun _ _ => LWp.of_pure (LWp.of_pure trivial)

theorem lwp_step_returns (hl : Local totalWatch s) (hid : s.Identifies m) :
    LWp totalWatch (step m) (fun _ _ => True) s := by
  by_cases htype : m.type = .append ∨ m.type = .installSnapshot
  · refine LWp.bind (LWp.of_get (LWp.ite (fun _ => LWp.of_pure trivial) fun _ => LWp.bind ?_))
    refine lwp_adoptTerm (fun s₁ hcore _ => ?_) fun s' _ => LWp.of_pure trivial
    rcases htype with htype | htype
    · rw [htype]
      exact lwp_onAppend_returns (hl.of_core hcore) htype
    · rw [htype]
      exact lwp_onInstallSnapshot_returns
  obtain ⟨hno, hno'⟩ := not_or.mp htype
  by_cases hsaved : m.type = .requestVote → s.term < m.term →
      (StableStore.saveHardState { term := m.term, commit := s.commit } s.store).1 = none
  · exact (lwp_step hl fun hrun => {
      append := fun _ h => absurd h hno
      cut := fun h => absurd h hno
      snapshot := fun h => absurd h hno'
      sender := fun _ hasks => hid ⟨hrun, hasks, hsaved⟩ }).mono fun _ _ _ => trivial
  · -- the store fails, and the node stops before it asks
    push Not at hsaved
    obtain ⟨htype, hlater, hfails⟩ := hsaved
    obtain ⟨err, hfails⟩ := Option.ne_none_iff_exists'.mp hfails
    refine LWp.bind (LWp.of_get (LWp.ite (fun _ => LWp.of_pure trivial) fun _ => LWp.bind ?_))
    refine LWp.bind (LWp.of_get (LWp.ite (fun hown => absurd hown ?_) fun _ => LWp.bind ?_))
    · simp [htype, hlater]
    · exact LWp.of_ok (tryStore_error hfails) (LWp.of_pure (LWp.of_pure trivial))

/-- A step of a node whose indexes are in order and whose queue is empty returns exactly if the
message names a node as its sender, where that is asked for. -/
theorem step_returns_iff (hl : Local { settled := True } s) (hempty : s.outbound = []) :
    (∃ t, step m s = .ok () t) ↔ s.Identifies m := by
  refine ⟨fun ⟨_, hstep⟩ => identifies_of_step hstep, fun hid => ?_⟩
  have hl' : Local totalWatch s := { hl with }
  obtain ⟨_, t, hstep, _⟩ := (lwp_step_returns hl' hid).total trivial (emits_step m) hl.tame
    (by rw [hempty]; decide)
  exact ⟨t, hstep⟩

end Raft

end Promtact
