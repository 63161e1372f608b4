import Promtact.Raft.Process

/-!
# What moves the applied index

Only `applyEntries` and a snapshot that is taken over move the applied index. Every other
operation keeps to the effect `Idle`, also when it panics.
-/

namespace Promtact.Raft

variable {σ α β : Type} {s s' : Node σ} {m : Message}

/-- The applied index stays where it is. -/
def Idle (_ : Nat) (s t : Node σ) : Prop := t.applied = s.applied

instance : Effect (Idle (σ := σ)) where
  trans h₁ h₂ := h₂.trans h₁
  mono h _ := h
  same hframe _ := by
    simp only [Node.frame, Prod.mk.injEq] at hframe
    exact hframe.2.2.2.2.2.2
  ensurePeers s mask := ensurePeers_frame Node.applied (fun _ _ _ _ => rfl) mask s
  send _ _ := rfl
  halt _ := rfl
  peers h := h

variable [StableStore σ]

instance : Rises (Idle (σ := σ)) := Rises.of_free fun _ _ happlied _ => happlied

/-! ## Messages -/

/-- The node takes over a snapshot from beyond what it has applied. -/
def Node.Overtakes (m : Message) (s : Node σ) : Prop :=
  s.faulted = false ∧ m.type = .installSnapshot ∧ s.term ≤ m.term ∧ m.snapshotOld ≠ 0 ∧
    s.applied < m.snapshotIndex

instance (m : Message) (s : Node σ) : Decidable (s.Overtakes m) := by
  unfold Node.Overtakes
  infer_instance

/-- A snapshot that is refused, or from behind the applied index. -/
theorem lwp_onInstallSnapshot_applied
    (hm : s.rejectsSnapshot m = true ∨ m.snapshotIndex ≤ s.applied) :
    LWp {} (onInstallSnapshot m) (fun _ s' => s'.applied = s.applied) s := by
  refine LWp.bind (LWp.of_get (LWp.ite (fun _ => ?_) fun hno => ?_))
  · exact LWp.of_within (R := Idle) Within.sent id fun _ _ h => h
  · have hle := hm.resolve_left hno
    -- what follows once the snapshot is stored
    have hanswer : ∀ s₁ : Node σ, s₁.applied = s.applied → LWp {} (do
        modify fun n => { n with state := .follower, leader := m.fromID, elapsed := 0 }
        let n ← get
        send {
          type := .installSnapshotResponse, fromID := n.id, toID := m.fromID, term := n.term
          matchIndex := n.baseIndex }) (fun _ s' => s'.applied = s.applied) s₁ := by
      intro s₁ happlied
      refine LWp.bind (LWp.of_modify (LWp.bind (LWp.of_get ?_)))
      exact LWp.of_within (R := Idle) Within.sent id fun _ _ h => h.trans happlied
    refine LWp.bind (LWp.bind (LWp.of_get (LWp.ite (fun _ => LWp.of_pure (hanswer s rfl))
      fun _ => LWp.bind ?_)))
    refine LWp.of_within (R := Idle) (within_saveAndCompact _) id fun ok s₁ (happlied : s₁.applied = s.applied) => ?_
    refine LWp.ite (fun _ => LWp.of_pure (LWp.of_pure happlied)) fun _ =>
      LWp.bind (LWp.of_modify (LWp.of_pure (hanswer _ ?_)))
    show max s₁.applied m.snapshotIndex = s.applied
    omega

/-- A message that is not such a snapshot leaves the applied index where it was. -/
theorem step_applied (hm : ¬ s.Overtakes m) (h : step m s = .ok ⟨⟩ s') :
    s'.applied = s.applied := by
  by_cases htype : m.type = .installSnapshot
  · refine LWp.elim (W := {}) (Q := fun _ s' => s'.applied = s.applied) ?_ h
    refine LWp.bind (LWp.of_get (LWp.ite (fun _ => LWp.of_pure rfl) fun hrun => LWp.bind ?_))
    -- the handler, once the node has the term of the message
    have hhandle : ∀ s₁ : Node σ, s₁.applied = s.applied →
        s₁.rejectsSnapshot m = true ∨ m.snapshotIndex ≤ s₁.applied →
        LWp {} (onInstallSnapshot m) (fun _ s' => s'.applied = s.applied) s₁ := by
      intro s₁ happlied hm₁
      exact (lwp_onInstallSnapshot_applied hm₁).mono fun _ _ h => h.trans happlied
    rcases Nat.lt_or_ge m.term s.term with hlt | hge
    · refine LWp.bind (LWp.of_get (LWp.ite (fun _ => LWp.of_pure ?_) fun hno => ?_))
      · simp only [htype]
        exact hhandle s rfl (Or.inl (by simp [Node.rejectsSnapshot, hlt]))
      · exact absurd (by simp [Nat.le_of_lt hlt]) hno
    · refine LWp.of_within (R := Idle) (within_adoptTerm m) id fun ok s₁ (happlied : s₁.applied = s.applied) => ?_
      refine LWp.ite (fun _ => LWp.of_pure happlied) fun _ => ?_
      simp only [htype]
      refine hhandle s₁ happlied ?_
      by_cases hold : m.snapshotOld = 0
      · exact Or.inl (by simp [Node.rejectsSnapshot, hold])
      · refine Or.inr (Nat.le_of_not_lt fun hlt => hm ?_)
        exact ⟨by simpa using hrun, htype, hge, hold, by omega⟩
  · exact Within.elim (R := Idle) (within_step fun h => absurd h htype) h

/-! ## Operations -/

/-- No operation but `applyEntries` moves the applied index, snapshots from beyond it apart. -/
theorem exec_applied {op : Op} {out : Output} (hexec : op.exec s = .ok out s')
    (hstep : ∀ m, op = .step m → ¬ s.Overtakes m) (happly : op ≠ .applyEntries) :
    s'.applied = s.applied := by
  by_cases hmay : op.MayApply
  · obtain ⟨m, rfl, _⟩ := hmay.resolve_left happly
    refine LWp.elim (W := {}) (Q := fun _ s' => s'.applied = s.applied) (LWp.bind ?_) hexec
    cases hrun : step m s with
    | error e s₁ => exact LWp.of_error hrun id
    | ok a s₁ => exact LWp.of_ok hrun (LWp.of_pure (step_applied (hstep m rfl) hrun))
  · exact Within.elim (R := Idle) (within_exec fun h => absurd h hmay) hexec

/-! ## Recovery -/

omit [StableStore σ] in
/-- A rebuilt node has applied what its snapshot covers. -/
theorem recover_applied {id timeout : Nat} {peers : List Nat} {store : σ} {recovery : Recovery}
    (h : recover id peers timeout store recovery = .ok s) (hrunning : s.faulted = false) :
    s.applied = recovery.snapshot.lastIndex := by
  unfold recover at h
  split at h
  · obtain ⟨n, hn, h⟩ := bind_eq_ok.mp h
    have hw : LWp {} (restoreSnapshot recovery.hard recovery.snapshot recovery.suffix)
        (fun _ s' => s'.faulted = true ∨ s'.applied = recovery.snapshot.lastIndex) n := by
      refine LWp.bind (LWp.of_modify (LWp.ite
        (fun _ => lwp_failStorage fun _ hs => Or.inl hs.faulted) fun _ => ?_))
      refine LWp.bind (LWp.of_modify (LWp.bind (LWp.of_modify ?_)))
      exact LWp.of_within (R := Idle) within_restore (fun h => h) fun _ _ happlied => Or.inr happlied
    refine (hw.elim (built_eq_ok h)).resolve_left fun hfaulted => ?_
    rw [hrunning] at hfaulted
    cases hfaulted
  · rename_i hsnap
    obtain ⟨n, hn, h⟩ := bind_eq_ok.mp h
    obtain ⟨voters, _, rfl⟩ := newNodeWithStore_cases hn
    have hidle : s.applied = 0 := Within.elim (R := Idle) within_restore (built_eq_ok h)
    rw [hidle]
    exact (not_not.mp hsnap).symm

end Promtact.Raft
