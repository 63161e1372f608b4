import Promtact.Raft.Process

/-!
# A leader that stays one

A read barrier is worth waiting for while its node leads with the same read context.
`Serves` says so. A leader keeps it through every operation, unless it stops, takes a
message that makes it step down (`DeposedBy`), commits the final configuration of a
transition, or starts another barrier.

Until it compacts its log, such a leader only appends to its store and saves hard states
(`ServesFrom`). So whether a compaction can stop it is a question about the store that the
leader started from (`Compacts`).
-/

namespace Promtact.Raft

open GhostState
open Function (update)
open Node (indexes)

variable {σ α : Type} {s₀ s s' : Node σ} {context : Word} {m : Message}

namespace Node

def Serves (context : Word) (s : Node σ) : Prop := s.state = .leader ∧ s.readContext = context

/-- A message that makes a leader a follower: of a later term, or of another leader of its
own term. Pre-votes are not adopted. -/
def DeposedBy (s : Node σ) (m : Message) : Prop :=
  (s.term < m.term ∧ m.type ≠ .preVote ∧ m.type ≠ .preVoteResponse) ∨
  (s.term ≤ m.term ∧ (m.type = .append ∨ m.type = .installSnapshot))

instance (s : Node σ) (m : Message) : Decidable (s.DeposedBy m) := by
  unfold DeposedBy
  infer_instance

/-- No final configuration waits to be committed. -/
def NoFinal (s : Node σ) : Prop :=
  ∀ i ∈ indexes (s.commit + 1) s.lastIndex, ∀ e, s.entryAt? i = some e → e.kind ≠ .finalConfig

end Node

instance (s : Node σ) : Decidable s.NoFinal := by
  unfold Node.NoFinal
  have : ∀ i, Decidable (∀ e, s.entryAt? i = some e → e.kind ≠ .finalConfig) := fun i =>
    match h : s.entryAt? i with
    | none => isTrue fun _ he => nomatch he
    | some e => decidable_of_iff (e.kind ≠ .finalConfig)
        ⟨fun hk e' he => by cases he; exact hk, fun hk => hk e rfl⟩
  infer_instance

variable [StableStore σ]

/-- What a store becomes by calls of Append and SaveHardState that return nil. -/
inductive Written (store : σ) : σ → Prop
  | refl : Written store store
  | saveHardState {store' : σ} (hard : HardState) (hw : Written store store')
    (hok : (StableStore.saveHardState hard store').1 = none) :
    Written store (StableStore.saveHardState hard store').2
  | append {store' : σ} (index : Nat) (entry : Entry) (hw : Written store store')
    (hok : (StableStore.append index entry store').1 = none) :
    Written store (StableStore.append index entry store').2

/-- Whatever is appended and saved first, the store then saves a snapshot beyond the base
of the log, and cuts the log at it. -/
def Node.Compacts (s : Node σ) : Prop := ∀ store, Written s.store store →
  ∃ snapshots, StableStore.snapshots (σ := σ) = some snapshots ∧
    ∀ snapshot : Snapshot, s.baseIndex < snapshot.lastIndex →
      (snapshots.saveSnapshot snapshot store).1 = none ∧
      (snapshots.compactLog snapshot.lastIndex (snapshots.saveSnapshot snapshot store).2).1 = none

/-- The node serves, and has not compacted its log since it was `s₀`. -/
def Node.ServesFrom (s₀ : Node σ) (context : Word) (s : Node σ) : Prop :=
  s.Serves context ∧ s.baseIndex = s₀.baseIndex ∧ Written s₀.store s.store

theorem Node.Serves.from_self (hs : s.Serves context) : s.ServesFrom context s :=
  ⟨hs, rfl, .refl⟩

/-- The node goes on serving, or stops. -/
def EndsServing (s₀ : Node σ) (context : Word) (_ : α) (s : Node σ) : Prop :=
  s.Stopped ∨ s₀.ServesFrom context s

theorem Sends.serves (h : Sends s s') (hs : s₀.ServesFrom context s) : s₀.ServesFrom context s' := by
  obtain ⟨_, _, rfl⟩ := h
  exact hs

theorem ensurePeers_serves (mask : Word) (hs : s₀.ServesFrom context s) :
    s₀.ServesFrom context (s.ensurePeers mask) := by
  have hframe := ensurePeers_frame (fun n : Node σ => (n.state, n.readContext, n.baseIndex, n.store))
    (fun _ _ _ _ => rfl) mask s
  simp only [Prod.mk.injEq] at hframe
  obtain ⟨hstate, hcontext, hbase, hstore⟩ := hframe
  unfold Node.ServesFrom Node.Serves
  rw [hstate, hcontext, hbase, hstore]
  exact hs

theorem Node.ServesFrom.saved {hard : HardState} (hs : s₀.ServesFrom context s)
    (hok : (StableStore.saveHardState hard s.store).1 = none) :
    s₀.ServesFrom context { s with store := (StableStore.saveHardState hard s.store).2 } :=
  ⟨hs.1, hs.2.1, .saveHardState hard hs.2.2 hok⟩

/-! ## Committing -/

section Committing

variable {Q : Bool → Node σ → Prop}

/-- The configurations of a range without a final one. -/
theorem lwp_applyCommittedConfigurations_serves {first last : Nat} {Q : Unit → Node σ → Prop}
    (hs : s₀.ServesFrom context s)
    (hfinal : ∀ i ∈ indexes first last, ∀ e, s.entryAt? i = some e → e.kind ≠ .finalConfig)
    (hq : ∀ s', SameLog s s' → s₀.ServesFrom context s' → Q ⟨⟩ s') :
    LWp {} (applyCommittedConfigurations first last) Q s := by
  refine LWp.bind (LWp.of_get ?_)
  refine (LWp.forM (I := fun s' => SameLog s s' ∧ s₀.ServesFrom context s') ?_ ⟨SameLog.refl s, hs⟩).mono
    fun _ s' h => hq s' h.1 h.2
  rintro i hi s' ⟨hsame, hserves⟩
  refine LWp.bind (lwp_ask False.elim fun e he => LWp.bind ?_)
  have hat : s.entryAt? i = some e := by
    rw [← entryAt_eq_ok.mp he]
    unfold Node.entryAt? Node.offset Node.lastIndex
    rw [hsame.1, hsame.2.1]
  have hend : ∀ s₁ : Node σ, SameLog s s₁ → s₀.ServesFrom context s₁ → LWp {} (modify fun n : Node σ =>
      if i = n.pendingConfig then { n with pendingConfig := 0 } else n)
      (fun _ s' => SameLog s s' ∧ s₀.ServesFrom context s') s₁ := by
    intro s₁ hsame₁ hserves₁
    refine LWp.of_modify ?_
    split
    · exact ⟨hsame₁, hserves₁⟩
    · exact ⟨hsame₁, hserves₁⟩
  unfold installConfiguration
  cases hkind : e.kind with
  | finalConfig =>
    refine absurd hkind (hfinal i ?_ e hat)
    unfold indexes at hi ⊢
    rw [List.mem_range'_1] at hi ⊢
    split at hi <;> omega
  | jointConfig =>
    refine LWp.bind (LWp.of_modify (LWp.of_modify (hend _ ?_ (ensurePeers_serves _ ?_))))
    · have hvoters : SameLog s { s' with votersOld := e.oldVoters, votersNew := e.newVoters } := hsame
      exact hvoters.trans (SameLog.ensurePeers _ _)
    · exact hserves
  | normal => exact LWp.of_pure (hend s' hsame hserves)
  | noop => exact LWp.of_pure (hend s' hsame hserves)
  | other code => exact LWp.of_pure (hend s' hsame hserves)

theorem lwp_commitTo_serves {i : Nat} (hs : s₀.ServesFrom context s) (hfinal : s.NoFinal)
    (hok : ∀ s', SameLog { s with commit := i } s' → s₀.ServesFrom context s' → Q true s')
    (hfailed : ∀ s' : Node σ, s'.Stopped → Q false s') : LWp {} (commitTo i) Q s := by
  refine LWp.bind (LWp.of_get (LWp.bind (lwp_call (fun hc => ?_) fun s' hs' =>
    LWp.of_pure (hfailed s' hs'))))
  refine LWp.bind (LWp.of_modify (LWp.bind ?_))
  refine lwp_applyCommittedConfigurations_serves (hs.saved hc) ?_
    fun s' hsame hserves => LWp.of_pure (hok s' hsame hserves)
  intro j hj e he
  refine hfinal j ?_ e he
  exact mem_indexes.mpr ⟨(mem_indexes.mp hj).1, (entryAt?_inLog he).2.1⟩

theorem lwp_commitOwn_serves (hs : s₀.ServesFrom context s) (hfinal : s.NoFinal)
    (hok : ∀ s', s₀.ServesFrom context s' → SameLog { s with commit := s.lastIndex } s' → Q true s')
    (hfailed : ∀ s' : Node σ, s'.Stopped → Q false s') : LWp {} commitOwn Q s := by
  refine LWp.bind (LWp.of_get (LWp.bind (LWp.of_modify (LWp.bind ?_))))
  refine lwp_call (fun hc => LWp.bind ?_) fun s' hs' =>
    LWp.bind (LWp.of_modify (LWp.of_pure (hfailed _ { hs' with })))
  refine lwp_applyCommittedConfigurations_serves (hs.saved hc) ?_
    fun s' hsame hserves => LWp.of_pure (hok s' hserves hsame)
  exact fun j hj e he => hfinal j hj e he

theorem lwp_appendLocal_serves {e : Entry} (hs : s₀.ServesFrom context s) (hfinal : s.NoFinal)
    (hlog : s.log ≠ []) (hkind : e.kind ≠ .finalConfig)
    (hok : ∀ s', s₀.ServesFrom context s' → s'.log ≠ [] → Q true s')
    (hfailed : ∀ s' : Node σ, s'.Stopped → Q false s') : LWp {} (appendLocal e) Q s := by
  refine LWp.bind (LWp.of_get (LWp.bind (lwp_call (fun hc => ?_) fun s' hs' =>
    LWp.of_pure (hfailed s' hs'))))
  have hs₁ : s₀.ServesFrom context
      { s with store := (StableStore.append (s.lastIndex + 1) e s.store).2 } :=
    ⟨hs.1, hs.2.1, .append _ _ hs.2.2 hc⟩
  generalize (StableStore.append (s.lastIndex + 1) e s.store).2 = store at hs₁ ⊢
  refine LWp.bind (LWp.of_modify ?_)
  refine LWp.bind (lwp_ask False.elim fun own _ => LWp.bind (lwp_ask False.elim fun b _ =>
    LWp.ite (fun _ => LWp.of_pure (hok _ hs₁ (by simp))) fun _ => ?_))
  refine lwp_commitOwn_serves hs₁ ?_ (fun s' hs' hsame => hok s' hs' fun h => ?_) hfailed
  rotate_left
  · have := hsame.1.symm.trans h
    simp at this
  intro i hi e' he'
  have hlast := lastIndex_concat (s := { s with store := store }) (e := e) hlog
  rw [mem_indexes, hlast] at hi
  rcases Nat.lt_or_ge s.lastIndex i with hlt | hle
  · obtain rfl : i = s.lastIndex + 1 := by
      replace hi : i ≤ s.lastIndex + 1 := hi.2
      omega
    have hnew := entryAt?_concat (s := { s with store := store }) (e := e) hlog
    rw [show ({ s with store := store } : Node σ).lastIndex = s.lastIndex from rfl] at hnew
    cases hnew.symm.trans he'
    exact hkind
  · have hold := entryAt?_concat_of_le (s := { s with store := store }) (e := e) hlog hle
    exact hfinal i (mem_indexes.mpr ⟨hi.1, hle⟩) e' (hold.symm.trans he')

end Committing

/-! ## Operations -/

section Operations

omit [StableStore σ] in
/-- A leader sends a round of appends. -/
theorem lwp_broadcastAppend_serves {Q : Unit → Node σ → Prop} (hlog : s.log ≠ [])
    (hq : ∀ s', Sends s s' → Q ⟨⟩ s') : LWp {} broadcastAppend Q s := by
  refine LWp.bind (LWp.of_get (lwp_peers (fun p _ s' hs' => ?_) hq))
  refine LWp.bind (lwp_ask False.elim fun _ _ => LWp.ite (fun _ => ?_) fun _ => LWp.of_pure hs')
  refine lwp_appendToContext ?_ fun s'' hs'' => hs'.trans hs''
  obtain ⟨_, _, rfl⟩ := hs'
  exact hlog

theorem lwp_appendTo_serves {p : Nat} (hs : s₀.ServesFrom context s) (hlog : s.log ≠ []) :
    LWp {} (appendTo p) (EndsServing s₀ context) s :=
  lwp_appendToContext hlog fun _ hs' => Or.inr (hs'.serves hs)

theorem lwp_advanceCommit_serves {Q : Bool → Node σ → Prop} (hs : s₀.ServesFrom context s)
    (hlog : s.log ≠ []) (hfinal : s.NoFinal)
    (hok : ∀ s', s₀.ServesFrom context s' → s'.log ≠ [] → Q true s')
    (hfailed : ∀ s' : Node σ, s'.Stopped → Q false s') : LWp {} advanceCommit Q s := by
  refine LWp.bind (LWp.of_get (LWp.bind (lwp_ask False.elim fun found _ => ?_)))
  cases found with
  | none => exact LWp.of_pure (hok s hs hlog)
  | some i =>
    refine LWp.bind (lwp_commitTo_serves hs hfinal (fun s₁ hsame hs₁ => ?_) fun s' hs' =>
      LWp.of_pure (hfailed s' hs'))
    have hlog₁ : s₁.log ≠ [] := fun h => hlog (hsame.1.symm.trans h)
    refine LWp.bind (LWp.of_get (LWp.ite (fun _ => LWp.bind ?_) fun _ =>
      LWp.of_pure (hok s₁ hs₁ hlog₁)))
    refine lwp_broadcastAppend_serves hlog₁ fun s₂ hs₂ => LWp.of_pure (hok s₂ (hs₂.serves hs₁) ?_)
    obtain ⟨_, _, rfl⟩ := hs₂
    exact hlog₁

theorem lwp_onAppendResponse_serves (hs : s₀.ServesFrom context s) (hlog : s.log ≠ [])
    (hfinal : s.NoFinal) : LWp {} (onAppendResponse m) (EndsServing s₀ context) s := by
  refine LWp.bind (lwp_confirmRead False.elim False.elim fun acks index ready => ?_)
  refine LWp.bind (LWp.of_get (LWp.ite (fun _ => LWp.of_pure (Or.inr hs)) fun _ =>
    LWp.ite (fun _ => LWp.bind (LWp.of_modify ?_)) fun _ => LWp.bind (LWp.of_modify ?_)))
  · split
    · exact lwp_appendTo_serves hs hlog
    · exact lwp_appendTo_serves hs hlog
  · refine LWp.bind (lwp_advanceCommit_serves hs hlog hfinal (fun s₂ hs₂ hlog₂ => ?_)
      fun s' hs' => LWp.of_pure (Or.inl hs'))
    exact LWp.bind (LWp.of_get (LWp.ite (fun _ => LWp.of_pure (Or.inr hs₂)) fun _ =>
      LWp.ite (fun _ => lwp_appendTo_serves hs₂ hlog₂) fun _ => LWp.of_pure (Or.inr hs₂)))

/-- A message that does not depose the leader. -/
theorem lwp_step_serves (hs : s₀.ServesFrom context s) (hlog : s.log ≠ []) (hfinal : s.NoFinal)
    (hstays : ¬ s.DeposedBy m) : LWp {} (step m) (EndsServing s₀ context) s := by
  refine LWp.bind (LWp.of_get (LWp.ite (fun _ => LWp.of_pure (Or.inr hs)) fun _ => ?_))
  have hown : m.type = .preVote ∨ m.type = .preVoteResponse ∨ m.term ≤ s.term := by
    by_contra hno
    simp only [not_or, Nat.not_le] at hno
    exact hstays (Or.inl ⟨hno.2.2, hno.1, hno.2.1⟩)
  refine LWp.bind (LWp.of_ok (adoptTerm_eq hown) ?_)
  have hanswer : ∀ answer : Message, LWp {} (send answer) (EndsServing s₀ context) s := fun _ =>
    lwp_send fun _ hs' => Or.inr (hs'.serves hs)
  have hold : m.type = .append ∨ m.type = .installSnapshot → m.term < s.term := fun htype =>
    Nat.lt_of_not_le fun hle => hstays (Or.inr ⟨hle, htype⟩)
  cases htype : m.type with
  | preVote => exact lwp_onPreVote False.elim False.elim fun _ => hanswer _
  | preVoteResponse =>
    exact LWp.bind (LWp.of_get (LWp.ite (fun _ => LWp.of_pure (Or.inr hs)) fun h => absurd hs.1.1 h))
  | requestVote =>
    refine lwp_onVote False.elim False.elim (hanswer _) (LWp.bind ?_)
    refine lwp_call (fun hc => LWp.bind (LWp.of_modify ?_)) fun s' hs' => LWp.of_pure (Or.inl hs')
    exact lwp_send fun _ hs' => Or.inr (hs'.serves (hs.saved hc))
  | requestVoteResponse =>
    exact LWp.bind (LWp.of_get (LWp.ite (fun _ => LWp.of_pure (Or.inr hs)) fun h =>
      absurd (fun hc => State.noConfusion (hs.1.1.symm.trans hc)) h))
  | append =>
    have hreject : s.rejectsAppend m = true := by simp [Node.rejectsAppend, hold (Or.inl htype)]
    exact LWp.bind (LWp.of_get (LWp.ite (fun _ => hanswer _) fun h => absurd hreject h))
  | appendResponse => exact lwp_onAppendResponse_serves hs hlog hfinal
  | installSnapshot =>
    have hreject : s.rejectsSnapshot m = true := by
      simp [Node.rejectsSnapshot, hold (Or.inr htype)]
    exact LWp.bind (LWp.of_get (LWp.ite (fun _ => lwp_send fun _ hs' => Or.inr (hs'.serves hs))
      fun h => absurd hreject h))
  | installSnapshotResponse =>
    refine lwp_onInstallSnapshotResponse False.elim False.elim (Or.inr hs) fun _ _ _ t ht => ?_
    rcases ht with rfl | ⟨_, rfl⟩
    · exact ⟨Or.inr hs, lwp_appendTo_serves hs hlog⟩
    · exact ⟨Or.inr hs, lwp_appendTo_serves hs hlog⟩
  | timeoutNow =>
    refine LWp.bind (LWp.of_get (LWp.ite (fun h => ?_) fun _ => LWp.of_pure (Or.inr hs)))
    simp [hs.1.1] at h
  | other c => exact LWp.of_pure (Or.inr hs)

theorem lwp_proposeRequest_serves {operation : CommandOp} {clientID requestID key value : Word}
    (hs : s₀.ServesFrom context s) (hlog : s.log ≠ []) (hfinal : s.NoFinal) :
    LWp {} (proposeRequest operation clientID requestID key value) (EndsServing s₀ context) s := by
  refine LWp.bind (LWp.of_get (LWp.ite (fun _ => LWp.of_pure (Or.inr hs)) fun _ => LWp.bind ?_))
  refine lwp_appendLocal_serves hs hfinal hlog (by simp) (fun s₁ hs₁ hlog₁ => LWp.bind ?_)
    fun s' hs' => LWp.of_pure (Or.inl hs')
  exact lwp_broadcastAppend_serves hlog₁ fun _ hs' => LWp.of_pure (Or.inr (hs'.serves hs₁))

/-- An accepted barrier is the one that the leader serves from then on. -/
theorem lwp_startReadIndex_serves (hlog : s.log ≠ []) : LWp {} (startReadIndex context)
    (fun accepted s' => accepted = true → s.ServesFrom context s') s := by
  refine lwp_startReadIndex False.elim (by simp) fun hleader own index ready =>
    lwp_peers (fun p _ s' hs' => ?_) fun s' hs' _ => hs'.serves ⟨⟨hleader, rfl⟩, rfl, .refl⟩
  refine lwp_appendToContext ?_ fun s'' hs'' => hs'.trans hs''
  obtain ⟨_, _, rfl⟩ := hs'
  exact hlog

/-- What an operation has to keep to for the leader to go on serving. -/
def OpServes (s : Node σ) : Op → Prop
  | .step m => ¬ s.DeposedBy m ∧ s.NoFinal
  | .tick | .applyEntries | .drain => True
  | .proposeRequest .. => s.NoFinal
  | _ => False

/-- The leader goes on serving through every operation that keeps to this, or stops. -/
theorem lwp_exec_serves {op : Op} (hs : s₀.ServesFrom context s) (hlog : s.log ≠ [])
    (hop : OpServes s op) : LWp {} op.exec (EndsServing s₀ context) s := by
  cases op with
  | tick =>
    refine LWp.map _ (lwp_tick (fun _ => Or.inr hs) (fun _ => ?_) fun h => absurd hs.1.1 h)
    exact lwp_broadcastAppend_serves hlog fun _ hs' => Or.inr (hs'.serves hs)
  | step m => exact LWp.map _ (lwp_step_serves hs hlog hop.2 hop.1)
  | proposeRequest operation clientID requestID key value =>
    exact LWp.map _ (lwp_proposeRequest_serves hs hlog hop)
  | applyEntries =>
    refine LWp.map _ (lwp_iff.mpr fun out s' hrun => ?_)
    obtain ⟨rfl, _⟩ := applyEntries_ok hrun
    exact Or.inr hs
  | drain => exact LWp.map _ (LWp.of_ok rfl (Or.inr hs))
  | propose | proposeJoint | proposeFinal | transferLeadership | startReadIndex | compact =>
    exact hop.elim

/-- A compaction that the store does not fail leaves the leader in office. -/
theorem lwp_compact_serves {index : Nat} {state : List UInt8} (hs : s₀.ServesFrom context s)
    (hc : s₀.Compacts) (hrunning : s.storageErr = none) : LWp {} (compact index state)
      (fun _ s' => s'.storageErr = none ∧ s'.Serves context) s := by
  obtain ⟨snapshots, hsnapshots, hstore⟩ := hc s.store hs.2.2
  refine LWp.bind (LWp.of_get (LWp.ite (fun _ => LWp.of_pure ⟨hrunning, hs.1⟩) fun hin => ?_))
  cases s.termAt index with
  | none => exact LWp.of_pure ⟨hrunning, hs.1⟩
  | some term =>
    simp only [Bool.or_eq_true, decide_eq_true_eq, not_or, Nat.not_le] at hin
    obtain ⟨hsave, hcut⟩ := hstore { lastIndex := index, lastTerm := term, state := state
                                     oldVoters := s.votersOld, newVoters := s.votersNew }
      (by rw [← hs.2.1]; exact hin.1)
    refine LWp.bind ?_
    unfold saveAndCompact
    rw [hsnapshots]
    refine LWp.bind (LWp.of_ok (tryStore_ok hsave) ?_)
    refine LWp.of_ok (tryStore_ok hcut) ?_
    exact LWp.bind (LWp.of_modify (LWp.of_pure ⟨hrunning, hs.1⟩))

end Operations

end Promtact.Raft
