import Promtact.Raft.Progress
import Promtact.Raft.Recorder

/-!
# What is promised is durable

Some messages are promises: a granted vote, an accepted append, an installed snapshot, and the
commit index of an append. `Promised` says what the store has to hold for each of them, in the
state in which the message is made.

A store is any store, with its calls recorded. `Recorder.durable` is what the calls that
returned no error have made of the content that the node started from. As long as the node
runs, this is its log, its base and its commit index (`Kept`). An operation first does what
changes these (`Working`), and only then sends what promises something (`Vouched`); when a call
fails, nothing is left to be sent.
-/

namespace Promtact.Raft

open GhostState
open Function (update)
open Node (indexes)

variable {σ α : Type}

/-! ## What is durable -/

namespace Durable

/-- What a call without an error leaves behind. A node fences its log at the snapshot that it
has just saved. -/
def after (d : Durable) : StoreCall → Durable
  | .saveHardState hard => d.saveHardState hard
  | .append index entry => d.append index entry
  | .saveSnapshot snapshot => d.saveSnapshot snapshot
  | .compactLog _ => d.fence

def entryAt? (d : Durable) (i : Nat) : Option Entry :=
  if i < d.base then none else d.data[i - d.base]?

end Durable

/-- The content that the calls leave behind, from the one they start with. -/
def Recorder.durable (d : Durable) (r : Recorder σ) : Durable :=
  r.calls.foldl (fun d call => if call.2 then d.after call.1 else d) d

/-- What the message promises is durable. -/
structure Promised (d : Durable) (s : Node (Recorder σ)) (m : Message) : Prop where
  vote : m.type = .requestVoteResponse → m.reject = false → ∃ commit,
    (StoreCall.saveHardState { term := m.term, votedFor := m.toID, commit := commit }, true) ∈
      s.store.calls
  entries : m.type = .appendResponse → m.reject = false → m.matchIndex ≤ s.lastIndex ∧
    ∀ i, s.baseIndex < i → i ≤ m.matchIndex →
      ∃ e, s.entryAt? i = some e ∧ (s.store.durable d).entryAt? i = some e
  snapshot : m.type = .installSnapshotResponse → m.reject = false →
    (s.store.durable d).snapshot.lastIndex = m.matchIndex ∧ (s.store.durable d).base = m.matchIndex
  commit : m.type = .append →
    m.commit ≤ max (s.store.durable d).hard.commit (s.store.durable d).snapshot.lastIndex

/-- The message promises nothing. -/
def Message.Free (m : Message) : Prop := m.type ≠ .append ∧
  (m.type = .requestVoteResponse ∨ m.type = .appendResponse ∨ m.type = .installSnapshotResponse →
    m.reject = true)

variable {d : Durable} {s₀ s s' : Node (Recorder σ)} {m : Message}

theorem Message.Free.promised (hm : m.Free) : Promised d s m where
  vote htype hreject := Bool.noConfusion (hreject.symm.trans (hm.2 (Or.inl htype)))
  entries htype hreject := Bool.noConfusion (hreject.symm.trans (hm.2 (Or.inr (Or.inl htype))))
  snapshot htype hreject := Bool.noConfusion (hreject.symm.trans (hm.2 (Or.inr (Or.inr htype))))
  commit htype := absurd htype hm.1

/-- The node holds what is durable, and every call so far was done. -/
structure Kept (d : Durable) (s : Node (Recorder σ)) : Prop where
  done : ∀ call ∈ s.store.calls, call.2 = true
  log_ne : s.log ≠ []
  data : (s.store.durable d).data = s.log
  base : (s.store.durable d).base = s.baseIndex
  snapshot : (s.store.durable d).snapshot.lastIndex = s.baseIndex
  commit : s.commit ≤ max (s.store.durable d).hard.commit s.baseIndex

/-- What the facts are about. -/
def Node.held (s : Node σ) : List Entry × Nat × Nat × σ × List Message :=
  (s.log, s.baseIndex, s.commit, s.store, s.outbound)

theorem Kept.of_eq (hk : Kept d s) (hlog : s'.log = s.log) (hbase : s'.baseIndex = s.baseIndex)
    (hcommit : s'.commit = s.commit) (hstore : s'.store = s.store) : Kept d s' := by
  refine ⟨?_, ?_, ?_, ?_, ?_, ?_⟩
  · rw [hstore]
    exact hk.done
  · rw [hlog]
    exact hk.log_ne
  · rw [hstore, hlog]
    exact hk.data
  · rw [hstore, hbase]
    exact hk.base
  · rw [hstore, hbase]
    exact hk.snapshot
  · rw [hstore, hcommit, hbase]
    exact hk.commit

theorem Promised.of_eq (hm : Promised d s m) (hlog : s'.log = s.log)
    (hbase : s'.baseIndex = s.baseIndex) (hstore : s'.store = s.store) : Promised d s' m := by
  obtain ⟨hvote, hentries, hsnapshot, hcommit⟩ := hm
  refine ⟨?_, ?_, ?_, ?_⟩
  · rwa [hstore]
  · unfold Node.lastIndex Node.entryAt? Node.offset Node.lastIndex at hentries ⊢
    rwa [hlog, hbase, hstore]
  · rwa [hstore]
  · rwa [hstore]

/-! ## Calls -/

section Calls

variable {call : StoreCall} {f : σ → Option StoreError × σ}

/-- A call that is done is recorded, and takes effect. -/
theorem durable_record {r : Recorder σ} (hf : (Recorder.record call f r).1 = none) :
    (Recorder.record call f r).2.calls = r.calls ++ [(call, true)] ∧
    (Recorder.record call f r).2.durable d = (r.durable d).after call := by
  have hok : (f r.store).1.isNone = true := Option.isNone_iff_eq_none.mpr hf
  have hcalls : (Recorder.record call f r).2.calls = r.calls ++ [(call, true)] := by
    rw [← hok]
    rfl
  refine ⟨hcalls, ?_⟩
  unfold Recorder.durable
  rw [hcalls, List.foldl_append]
  rfl

theorem done_record {r : Recorder σ} (hdone : ∀ c ∈ r.calls, c.2 = true)
    (hf : (Recorder.record call f r).1 = none) :
    ∀ c ∈ (Recorder.record call f r).2.calls, c.2 = true := by
  rw [(durable_record (d := {}) hf).1]
  intro c hc
  rcases List.mem_append.mp hc with hc | hc
  · exact hdone c hc
  · rw [List.mem_singleton.mp hc]

/-- The hard state is stored with a commit index, which the node then has. -/
theorem Kept.hard (hk : Kept d s) {hard : HardState} {commit : Nat} (hcommit : commit ≤ hard.commit)
    (hf : (Recorder.record (.saveHardState hard) f s.store).1 = none) :
    Kept d { s with store := (Recorder.record (.saveHardState hard) f s.store).2, commit := commit } := by
  obtain ⟨_, hd⟩ := durable_record (d := d) hf
  refine ⟨done_record hk.done hf, hk.log_ne, ?_, ?_, ?_, ?_⟩
  · rw [hd]
    exact hk.data
  · rw [hd]
    exact hk.base
  · rw [hd]
    exact hk.snapshot
  · rw [hd]
    exact Nat.le_trans hcommit (Nat.le_max_left _ _)

/-- The log is cut, and an entry is stored behind it. -/
theorem Kept.cut (hk : Kept d s) {i : Nat} {e : Entry}
    (hf : (Recorder.record (.append i e) f s.store).1 = none) :
    Kept d { s with
      store := (Recorder.record (.append i e) f s.store).2
      log := s.log.take (i - s.baseIndex) ++ [e] } := by
  obtain ⟨_, hd⟩ := durable_record (d := d) hf
  refine ⟨done_record hk.done hf, by simp, ?_, ?_, ?_, ?_⟩
  · rw [hd]
    show (s.store.durable d).data.take _ ++ [e] = _
    rw [hk.data, hk.base]
  · rw [hd]
    exact hk.base
  · rw [hd]
    exact hk.snapshot
  · rw [hd]
    exact hk.commit

theorem termAt_eq (hk : Kept d s) (i : Nat) : (s.store.durable d).term i = s.termAt i := by
  unfold Durable.term Durable.lastIndex Node.termAt Node.entryAt? Node.offset Node.lastIndex
  rw [hk.data, hk.base]
  split
  · rfl
  · rfl

/-- A snapshot is stored and the log is fenced at it. -/
theorem Kept.fenced (hk : Kept d s) {snapshot : Snapshot} {commit : Nat}
    {g : σ → Option StoreError × σ}
    (hf : (Recorder.record (.saveSnapshot snapshot) f s.store).1 = none)
    (hg : (Recorder.record (.compactLog snapshot.lastIndex) g
      (Recorder.record (.saveSnapshot snapshot) f s.store).2).1 = none)
    (hcommit : commit ≤ max s.commit snapshot.lastIndex) (hbase : s.baseIndex ≤ snapshot.lastIndex) :
    Kept d { s with
      store := (Recorder.record (.compactLog snapshot.lastIndex) g
        (Recorder.record (.saveSnapshot snapshot) f s.store).2).2
      log := s.logBehind snapshot, baseIndex := snapshot.lastIndex, commit := commit } := by
  obtain ⟨_, hd⟩ := durable_record (d := d) hf
  obtain ⟨_, hd'⟩ := durable_record (d := d) hg
  rw [hd] at hd'
  refine ⟨done_record (done_record hk.done hf) hg, ?_, ?_, ?_, ?_, ?_⟩
  · show s.logBehind snapshot ≠ []
    unfold Node.logBehind
    split
    · rename_i hterm
      obtain ⟨hlo, hhi⟩ := termAt_inLog hterm
      have hpos := List.length_pos_iff.mpr hk.log_ne
      unfold Node.lastIndex at hhi
      rw [Ne, List.drop_eq_nil_iff]
      omega
    · exact List.cons_ne_nil _ _
  · rw [hd']
    show (if (s.store.durable d).term snapshot.lastIndex = some snapshot.lastTerm then
      (s.store.durable d).data.drop (snapshot.lastIndex - (s.store.durable d).base)
      else [{ term := snapshot.lastTerm }]) = s.logBehind snapshot
    rw [termAt_eq hk, hk.data, hk.base]
    rfl
  · rw [hd']
    rfl
  · rw [hd']
    rfl
  · rw [hd']
    have h := hk.commit
    show commit ≤ max (s.store.durable d).hard.commit snapshot.lastIndex
    omega

end Calls

/-! ## An operation so far -/

/-- What the operation has sent so far promises nothing. -/
structure Working (d : Durable) (s₀ s : Node (Recorder σ)) : Prop extends Kept d s where
  free : ∃ new, s.outbound = s₀.outbound ++ new ∧ ∀ m ∈ new, m.Free

/-- What the operation has sent so far promises what is durable. -/
structure Vouched (d : Durable) (s₀ s : Node (Recorder σ)) : Prop extends Kept d s where
  sent : ∃ new, s.outbound = s₀.outbound ++ new ∧ ∀ m ∈ new, Promised d s m

/-- The node stops, or all that is sent is vouched for. -/
def EndsVouched (d : Durable) (s₀ : Node (Recorder σ)) (_ : α) (s : Node (Recorder σ)) : Prop :=
  s.Stopped ∨ Vouched d s₀ s

theorem Kept.working (hk : Kept d s) : Working d s s :=
  { hk with free := ⟨[], (List.append_nil _).symm, fun _ h => nomatch h⟩ }

theorem Working.vouched (hw : Working d s₀ s) : Vouched d s₀ s := by
  obtain ⟨new, hout, hfree⟩ := hw.free
  exact { hw.toKept with sent := ⟨new, hout, fun m hm => (hfree m hm).promised⟩ }

theorem Working.ends (hw : Working d s₀ s) (a : α) : EndsVouched d s₀ a s := Or.inr hw.vouched

/-- Something else changes. -/
theorem Working.of_held (hw : Working d s₀ s) (h : s'.held = s.held) : Working d s₀ s' := by
  simp only [Node.held, Prod.mk.injEq] at h
  obtain ⟨hlog, hbase, hcommit, hstore, hout⟩ := h
  obtain ⟨new, hnew, hfree⟩ := hw.free
  exact { hw.toKept.of_eq hlog hbase hcommit hstore with free := ⟨new, hout.trans hnew, hfree⟩ }

theorem Vouched.of_held (hv : Vouched d s₀ s) (h : s'.held = s.held) : Vouched d s₀ s' := by
  simp only [Node.held, Prod.mk.injEq] at h
  obtain ⟨hlog, hbase, hcommit, hstore, hout⟩ := h
  obtain ⟨new, hnew, hsent⟩ := hv.sent
  exact { hv.toKept.of_eq hlog hbase hcommit hstore with
    sent := ⟨new, hout.trans hnew, fun m hm => (hsent m hm).of_eq hlog hbase hstore⟩ }

theorem Working.ensurePeers (hw : Working d s₀ s) (mask : Word) :
    Working d s₀ (s.ensurePeers mask) := by
  obtain ⟨_, _, _, heq⟩ := ensurePeers_eq mask s
  rw [heq]
  exact hw.of_held rfl

/-! ## Sending -/

theorem lwp_send_free (hw : Working d s₀ s) (hm : m.Free) :
    LWp {} (send m) (fun _ => Working d s₀) s := by
  refine LWp.bind (LWp.of_get (LWp.ite (fun _ => Wp.of_throw False.elim) fun _ => LWp.of_ok rfl ?_))
  obtain ⟨new, hout, hfree⟩ := hw.free
  have hk : Kept d { s with outbound := s.outbound ++ [m] } := hw.toKept.of_eq rfl rfl rfl rfl
  refine { hk with free := ⟨new ++ [m], ?_, fun m' hm' => ?_⟩ }
  · show s.outbound ++ [m] = _
    rw [hout, List.append_assoc]
  · rcases List.mem_append.mp hm' with hm' | hm'
    · exact hfree m' hm'
    · rw [List.mem_singleton.mp hm']
      exact hm

theorem lwp_send_promised (hv : Vouched d s₀ s) (hm : Promised d s m) :
    LWp {} (send m) (fun _ => Vouched d s₀) s := by
  refine LWp.bind (LWp.of_get (LWp.ite (fun _ => Wp.of_throw False.elim) fun _ => LWp.of_ok rfl ?_))
  obtain ⟨new, hout, hsent⟩ := hv.sent
  have hk : Kept d { s with outbound := s.outbound ++ [m] } := hv.toKept.of_eq rfl rfl rfl rfl
  refine { hk with sent := ⟨new ++ [m], ?_, fun m' hm' => Promised.of_eq (s := s) ?_ rfl rfl rfl⟩ }
  · show s.outbound ++ [m] = _
    rw [hout, List.append_assoc]
  · rcases List.mem_append.mp hm' with hm' | hm'
    · exact hsent m' hm'
    · rw [List.mem_singleton.mp hm']
      exact hm

/-- An answer that is refused, or a request. -/
theorem lwp_answer_free (hw : Working d s₀ s) (hm : m.Free) :
    LWp {} (send m) (EndsVouched d s₀) s :=
  (lwp_send_free hw hm).mono fun _ _ h => h.ends _

theorem lwp_appendToContext_vouched {p : Nat} {context : Word} (hv : Vouched d s₀ s) :
    LWp {} (appendToContext p context) (fun _ => Vouched d s₀) s := by
  refine LWp.bind (LWp.of_get (LWp.ite (fun _ => lwp_send_promised hv ?_) fun _ => ?_))
  · exact Message.Free.promised ⟨MessageType.noConfusion, by simp⟩
  · refine LWp.bind (LWp.of_modify (LWp.bind (LWp.of_get ?_)))
    have hv₁ : Vouched d s₀ (if s.next p > s.lastIndex + 1 then
        { s with next := update s.next p (s.lastIndex + 1) } else s) := by
      split
      · exact hv.of_held rfl
      · exact hv
    generalize (if s.next p > s.lastIndex + 1 then
      { s with next := update s.next p (s.lastIndex + 1) } else s) = t at hv₁ ⊢
    -- the commit index of the node is durable
    have hpromised : ∀ {m : Message}, m.type = .append → m.commit = t.commit → Promised d t m := by
      intro m htype hcommit
      refine ⟨fun h => ?_, fun h => ?_, fun h => ?_, fun _ => ?_⟩
      · exact MessageType.noConfusion (htype.symm.trans h)
      · exact MessageType.noConfusion (htype.symm.trans h)
      · exact MessageType.noConfusion (htype.symm.trans h)
      · rw [hcommit, hv₁.snapshot]
        exact hv₁.commit
    refine LWp.bind (lwp_ask False.elim fun _ _ => LWp.ite (fun _ => ?_) fun _ => ?_)
    · exact LWp.bind (lwp_ask False.elim fun _ _ => lwp_send_promised hv₁ (hpromised rfl rfl))
    · exact lwp_send_promised hv₁ (hpromised rfl rfl)

theorem lwp_broadcastAppend_vouched (hv : Vouched d s₀ s) :
    LWp {} broadcastAppend (fun _ => Vouched d s₀) s := by
  refine LWp.bind (LWp.of_get (LWp.forM (fun p _ s' hs' => ?_) hv))
  exact LWp.bind (lwp_ask False.elim fun _ _ =>
    LWp.ite (fun _ => lwp_appendToContext_vouched hs') fun _ => LWp.of_pure hs')

/-- A round of requests for votes. -/
theorem lwp_canvass_working {request : Nat → Nat → Message} {index : Nat} {l : List Nat}
    (hrequest : ∀ p t, (request p t).Free) (hw : Working d s₀ s) : LWp {} (l.forM fun p => do
      let lastTerm ← ask (·.termAtMust index)
      send (request p lastTerm)) (fun _ => Working d s₀) s :=
  LWp.forM (fun p _ _ hs' => LWp.bind (lwp_ask False.elim fun t _ =>
    lwp_send_free hs' (hrequest p t))) hw

/-! ## Committing and storing -/

section Storing

variable {Q : Bool → Node (Recorder σ) → Prop}

theorem lwp_applyCommittedConfigurations_working {first last : Nat} (hw : Working d s₀ s) :
    LWp {} (applyCommittedConfigurations first last) (fun _ => Working d s₀) s :=
  lwp_applyCommittedConfigurations_keeps (fun _ _ _ h => h.of_held rfl)
    (fun _ mask h => h.ensurePeers mask) (fun _ h => h.of_held rfl) (fun _ h => h.of_held rfl) hw

variable [StableStore σ]

/-- The hard state is stored, with the commit index that the node has then. -/
theorem lwp_hard_working {hard : HardState} (commit : Nat) (hw : Working d s₀ s)
    (hcommit : commit ≤ hard.commit)
    (hok : ∀ store : Recorder σ, (StoreCall.saveHardState hard, true) ∈ store.calls →
      Working d s₀ { s with store := store, commit := commit } → Q true { s with store := store })
    (hfailed : ∀ s' : Node (Recorder σ), s'.Stopped → Q false s') :
    LWp {} (persistHardState hard) Q s := by
  refine lwp_call (fun hc => hok _ ?_ ?_) hfailed
  · show _ ∈ (Recorder.record _ _ s.store).2.calls
    rw [(durable_record (d := d) hc).1]
    exact List.mem_append_right _ (List.mem_singleton.mpr rfl)
  · exact { hw.toKept.hard hcommit hc with free := hw.free }

theorem lwp_commitTo_working {i : Nat} (hw : Working d s₀ s)
    (hok : ∀ s', Working d s₀ s' → s'.log = s.log → s'.baseIndex = s.baseIndex → Q true s')
    (hfailed : ∀ s' : Node (Recorder σ), s'.Stopped → Q false s') : LWp {} (commitTo i) Q s := by
  refine LWp.bind (LWp.of_get (LWp.bind (lwp_hard_working i hw (Nat.le_refl i)
    (fun store _ hw' => ?_) fun s' hs' => LWp.of_pure (hfailed s' hs'))))
  refine LWp.bind (LWp.of_modify (LWp.bind ?_))
  -- configurations leave the log alone
  refine (lwp_applyCommittedConfigurations_keeps (I := fun s' => Working d s₀ s' ∧ s'.log = s.log ∧
    s'.baseIndex = s.baseIndex) (fun _ _ _ h => ⟨h.1.of_held rfl, h.2⟩) (fun t mask h => ?_)
    (fun _ h => ⟨h.1.of_held rfl, h.2⟩) (fun _ h => ⟨h.1.of_held rfl, h.2⟩) ⟨hw', rfl, rfl⟩).mono
    fun _ s' hs' => LWp.of_pure (hok s' hs'.1 hs'.2.1 hs'.2.2)
  refine ⟨h.1.ensurePeers mask, ?_⟩
  obtain ⟨_, _, _, heq⟩ := ensurePeers_eq mask t
  rw [heq]
  exact h.2

theorem lwp_commitOwn_working (hw : Working d s₀ s) (hok : ∀ s', Working d s₀ s' → Q true s')
    (hfailed : ∀ s' : Node (Recorder σ), s'.Stopped → Q false s') : LWp {} commitOwn Q s := by
  refine LWp.bind (LWp.of_get (LWp.bind (LWp.of_modify (LWp.bind ?_))))
  refine lwp_call (fun hc => LWp.bind ?_) fun s' hs' =>
    LWp.bind (LWp.of_modify (LWp.of_pure (hfailed _ { hs' with })))
  have hw₁ : Working d s₀ { s with
      store := (StableStore.saveHardState
        { term := s.term, votedFor := s.votedFor, commit := s.lastIndex } s.store).2
      commit := s.lastIndex } :=
    { hw.toKept.hard (Nat.le_refl s.lastIndex) hc with free := hw.free }
  exact (lwp_applyCommittedConfigurations_working hw₁).mono fun _ s' hs' => LWp.of_pure (hok s' hs')

theorem lwp_appendLocal_working {e : Entry} (hw : Working d s₀ s)
    (hok : ∀ s', Working d s₀ s' → Q true s')
    (hfailed : ∀ s' : Node (Recorder σ), s'.Stopped → Q false s') : LWp {} (appendLocal e) Q s := by
  refine LWp.bind (LWp.of_get (LWp.bind (lwp_call (fun hc => ?_) fun s' hs' =>
    LWp.of_pure (hfailed s' hs'))))
  have hk := hw.toKept.cut hc
  rw [show s.lastIndex + 1 - s.baseIndex = s.log.length by
    have := List.length_pos_iff.mpr hw.log_ne
    unfold Node.lastIndex
    omega, List.take_length] at hk
  have hw₁ : Working d s₀ { s with
      store := (StableStore.append (s.lastIndex + 1) e s.store).2, log := s.log ++ [e] } :=
    { hk with free := hw.free }
  refine LWp.bind (LWp.of_modify (LWp.bind (lwp_ask False.elim fun _ _ => ?_)))
  exact LWp.bind (lwp_ask False.elim fun _ _ => LWp.ite (fun _ => LWp.of_pure (hok _ hw₁))
    fun _ => lwp_commitOwn_working hw₁ hok hfailed)

theorem lwp_advanceCommit_vouched (hw : Working d s₀ s) (hok : ∀ s', Vouched d s₀ s' → Q true s')
    (hfailed : ∀ s' : Node (Recorder σ), s'.Stopped → Q false s') : LWp {} advanceCommit Q s := by
  refine LWp.bind (LWp.of_get (LWp.bind (lwp_ask False.elim fun found _ => ?_)))
  cases found with
  | none => exact LWp.of_pure (hok s hw.vouched)
  | some i =>
    refine LWp.bind (lwp_commitTo_working hw (fun s₁ hs₁ _ _ => ?_) fun s' hs' =>
      LWp.of_pure (hfailed s' hs'))
    refine LWp.bind (LWp.of_get (LWp.ite (fun _ => LWp.bind ?_) fun _ =>
      LWp.of_pure (hok s₁ hs₁.vouched)))
    exact (lwp_broadcastAppend_vouched hs₁.vouched).mono fun _ s₂ hs₂ => LWp.of_pure (hok s₂ hs₂)

omit [StableStore σ] in
theorem lwp_rebuildPendingConfig_held {τ : Type} {s : Node τ} :
    LWp {} rebuildPendingConfig (fun _ s' => s'.held = s.held) s := by
  refine LWp.bind (LWp.of_modify (LWp.bind (LWp.of_get (LWp.forM (fun i _ s' hs' => ?_) rfl))))
  refine LWp.bind (lwp_ask False.elim fun e _ => LWp.ite (fun _ => ?_) fun _ => LWp.of_pure hs')
  refine LWp.bind (LWp.of_modify (LWp.of_modify ?_))
  obtain ⟨_, _, _, heq⟩ := ensurePeers_eq (e.oldVoters ||| e.newVoters) { s' with pendingConfig := i }
  rw [heq]
  exact hs'

/-- An entry is stored at the end of a log that is cut back to just before it. -/
theorem lwp_storeBehind_working {t : Node (Recorder σ)} (hw : Working d s₀ s)
    (hlo : s.baseIndex ≤ m.logIndex) (hhi : m.logIndex ≤ s.lastIndex)
    (ht : t.held = ({ s with log := s.log.take (m.logIndex + 1 - s.baseIndex) } : Node _).held)
    (hok : ∀ s', Working d s₀ s' → m.logIndex + 1 ≤ s'.lastIndex → Q true s')
    (hfailed : ∀ s' : Node (Recorder σ), s'.Stopped → Q false s') : LWp {} (do
      let n ← get
      if m.logIndex + 1 ≠ n.lastIndex + 1 then return true
      if !(← tryStore (StableStore.append (m.logIndex + 1) m.entry)) then return false
      modify fun n : Node (Recorder σ) => { n with log := n.log ++ [m.entry] }
      if m.entry.isConfig then
        modify fun n : Node (Recorder σ) => { n with pendingConfig := m.logIndex + 1 }
        modify (Node.ensurePeers (m.entry.oldVoters ||| m.entry.newVoters))
      return true) Q t := by
  simp only [Node.held, Prod.mk.injEq] at ht
  obtain ⟨hlog, hbase, hcommit, hst, hout⟩ := ht
  have hpos := List.length_pos_iff.mpr hw.log_ne
  have hlen : t.baseIndex + t.log.length = m.logIndex + 1 := by
    unfold Node.lastIndex at hhi
    rw [hlog, hbase, List.length_take]
    omega
  refine LWp.bind (LWp.of_get (LWp.ite (fun hne => absurd ?_ hne) fun _ => ?_))
  · unfold Node.lastIndex
    omega
  refine LWp.bind (lwp_call (fun hc => ?_) fun s' hs' => LWp.of_pure (hfailed s' hs'))
  generalize hr : (StableStore.append (m.logIndex + 1) m.entry t.store).2 = r
  have hk : Kept d { t with store := r, log := t.log ++ [m.entry] } := by
    rw [hst] at hc hr
    refine (hw.toKept.cut hc).of_eq ?_ hbase hcommit hr.symm
    show t.log ++ [m.entry] = _
    rw [hlog]
  have hw₁ : Working d s₀ { t with store := r, log := t.log ++ [m.entry] } := { hk with
    free := by
      show ∃ new, t.outbound = _ ∧ _
      rw [hout]
      exact hw.free }
  have hreaches : m.logIndex + 1 ≤ t.baseIndex + (t.log ++ [m.entry]).length - 1 := by
    rw [List.length_append, List.length_singleton]
    omega
  refine LWp.bind (LWp.of_modify (LWp.ite (fun _ => ?_) fun _ => LWp.of_pure (hok _ hw₁ hreaches)))
  refine LWp.bind (LWp.of_modify (LWp.bind (LWp.of_modify (LWp.of_pure ?_))))
  obtain ⟨_, _, _, heq⟩ := ensurePeers_eq (m.entry.oldVoters ||| m.entry.newVoters) { t with
    store := r, log := t.log ++ [m.entry], pendingConfig := m.logIndex + 1 }
  rw [heq]
  exact hok _ (hw₁.of_held rfl) hreaches

/-- The entry of an append is stored, and the log reaches what is confirmed. -/
theorem lwp_storeEntry_working {term : Nat} (hw : Working d s₀ s)
    (hprev : s.termAt m.logIndex = some term)
    (hok : ∀ s', Working d s₀ s' → m.matched ≤ s'.lastIndex → Q true s')
    (hfailed : ∀ s' : Node (Recorder σ), s'.Stopped → Q false s') : LWp {} (storeEntry m) Q s := by
  obtain ⟨hlo, hhi⟩ := termAt_inLog hprev
  refine LWp.ite (fun hno => LWp.of_pure (hok s hw ?_)) fun hentry => ?_
  · rw [Message.matched, if_neg (by simpa using hno)]
    exact hhi
  have hmatched : m.matched = m.logIndex + 1 := by
    rw [Message.matched, if_pos (by simpa using hentry)]
  rw [hmatched] at hok
  refine LWp.bind (LWp.bind (LWp.of_get ?_))
  cases hnext : s.termAt (m.logIndex + 1) with
  | none =>
    refine LWp.of_pure (lwp_storeBehind_working hw hlo hhi ?_ hok hfailed)
    have hlast : m.logIndex = s.lastIndex := by
      by_contra hne
      obtain ⟨t, ht⟩ := termAtMust_ok (s := s) (i := m.logIndex + 1) (by omega) (by omega) hw.log_ne
      unfold Node.termAtMust at ht
      rw [hnext] at ht
      cases ht
    have hpos := List.length_pos_iff.mpr hw.log_ne
    rw [hlast, show s.lastIndex + 1 - s.baseIndex = s.log.length by unfold Node.lastIndex; omega,
      List.take_length]
  | some present =>
    refine LWp.ite (fun _ => LWp.bind (LWp.of_modify ?_)) fun _ => LWp.of_pure ?_
    · exact lwp_rebuildPendingConfig_held.mono fun _ t ht =>
        lwp_storeBehind_working hw hlo hhi ht hok hfailed
    · -- the entry is there already
      obtain ⟨_, hin⟩ := termAt_inLog hnext
      exact LWp.bind (LWp.of_get (LWp.ite (fun _ => LWp.of_pure (hok s hw hin)) fun h =>
        absurd (by omega) h))

/-- A snapshot is stored, and the log is fenced at it. -/
theorem lwp_saveAndCompact_kept {snapshot : Snapshot} (hk : Kept d s)
    (hbase : s.baseIndex ≤ snapshot.lastIndex)
    (hok : ∀ store : Recorder σ, (∀ commit, commit ≤ max s.commit snapshot.lastIndex →
      Kept d { s with
        store := store, log := s.logBehind snapshot, baseIndex := snapshot.lastIndex
        commit := commit }) → Q true { s with store := store })
    (hfailed : ∀ s' : Node (Recorder σ), s'.Stopped → Q false s') :
    LWp {} (saveAndCompact snapshot) Q s := by
  have hsnapshots : StableStore.snapshots (σ := Recorder σ) =
    (StableStore.snapshots (σ := σ)).map _ := rfl
  unfold saveAndCompact
  rw [hsnapshots]
  cases StableStore.snapshots (σ := σ) with
  | none => exact LWp.bind (lwp_failStorage fun s' hs' => LWp.of_pure (hfailed s' hs'))
  | some inner =>
    refine LWp.bind (lwp_call (fun hc => ?_) fun s' hs' => LWp.of_pure (hfailed s' hs'))
    exact lwp_call (fun hc' => hok _ fun commit hcommit => hk.fenced hc hc' hcommit hbase) hfailed

end Storing

/-! ## Elections -/

section Handlers

variable [StableStore σ]

theorem lwp_becomeLeader_vouched (hw : Working d s₀ s) :
    LWp {} becomeLeader (EndsVouched d s₀) s := by
  refine LWp.bind (LWp.of_modify (LWp.bind (LWp.of_get (LWp.bind ?_))))
  refine lwp_appendLocal_working (Working.of_held hw rfl) (fun s₁ hs₁ => LWp.bind (LWp.of_modify ?_))
    fun s' hs' => LWp.of_pure (Or.inl hs')
  -- only what the leader knows of its peers is set
  have hheld : ∀ (l : List Nat) (next : Nat) (t : Node (Recorder σ)),
      (l.foldl (Node.resetProgress next) t).held = t.held := by
    intro l next
    induction l with
    | nil => exact fun _ => rfl
    | cons p l ih => exact fun t => ih _
  exact (lwp_broadcastAppend_vouched (hs₁.vouched.of_held (hheld _ _ _))).mono fun _ _ => Or.inr

theorem lwp_startElection_vouched (hw : Working d s₀ s) :
    LWp {} startElection (EndsVouched d s₀) s := by
  refine LWp.bind (LWp.of_get (LWp.bind (lwp_hard_working s.commit hw (Nat.le_refl _)
    (fun store _ hw₁ => ?_) fun s' hs' => LWp.of_pure (Or.inl hs'))))
  refine lwp_campaign (I := Working d s₀) False.elim False.elim (fun _ => lwp_canvass_working
    (fun _ _ => ?_) ?_) (fun _ h => h.ends _) fun _ => lwp_becomeLeader_vouched
  · exact ⟨MessageType.noConfusion, by simp⟩
  · exact hw₁.of_held rfl

theorem lwp_startPreVote_vouched (hw : Working d s₀ s) :
    LWp {} startPreVote (EndsVouched d s₀) s := by
  refine lwp_campaign (I := Working d s₀) False.elim False.elim (fun _ => lwp_canvass_working
    (fun _ _ => ?_) ?_) (fun _ h => h.ends _) fun _ => lwp_startElection_vouched
  · exact ⟨MessageType.noConfusion, by simp⟩
  · exact hw.of_held rfl

/-! ## Messages -/

omit [StableStore σ] in
theorem lwp_onPreVote_vouched (hw : Working d s₀ s) : LWp {} (onPreVote m) (EndsVouched d s₀) s :=
  lwp_onPreVote False.elim False.elim fun _ =>
    lwp_answer_free hw ⟨MessageType.noConfusion, by simp⟩

/-- The vote is durable when it is granted. -/
theorem lwp_onVote_vouched (hw : Working d s₀ s) : LWp {} (onVote m) (EndsVouched d s₀) s := by
  refine lwp_onVote False.elim False.elim ?_ (LWp.bind ?_)
  · exact lwp_answer_free hw ⟨MessageType.noConfusion, fun _ => rfl⟩
  · refine lwp_hard_working s.commit hw (Nat.le_refl _) (fun store hcall hw₁ => ?_) fun s' hs' =>
      LWp.of_pure (Or.inl hs')
    refine LWp.bind (LWp.of_modify ?_)
    refine LWp.mono (lwp_send_promised (Vouched.of_held hw₁.vouched rfl) ?_) fun _ _ => Or.inr
    refine ⟨fun _ _ => ⟨_, hcall⟩, ?_, ?_, ?_⟩
    · exact MessageType.noConfusion
    · exact MessageType.noConfusion
    · exact MessageType.noConfusion

theorem lwp_followCommit_working {Q : Bool → Node (Recorder σ) → Prop} (hw : Working d s₀ s)
    (hok : ∀ s', Working d s₀ s' → s'.log = s.log → s'.baseIndex = s.baseIndex → Q true s')
    (hfailed : ∀ s' : Node (Recorder σ), s'.Stopped → Q false s') : LWp {} (followCommit m) Q s :=
  LWp.bind (LWp.of_get (LWp.ite (fun _ => LWp.of_pure (hok s hw rfl rfl)) fun _ =>
    lwp_commitTo_working hw hok hfailed))

omit [StableStore σ] in
/-- The durable log is the one of the node. -/
theorem Kept.entryAt?_eq (hk : Kept d s) (i : Nat) :
    (s.store.durable d).entryAt? i = s.entryAt? i := by
  have hpos := List.length_pos_iff.mpr hk.log_ne
  unfold Durable.entryAt? Node.entryAt? Node.offset Node.lastIndex
  rw [hk.base, hk.data]
  split
  · rw [if_pos (.inl ‹_›)]
    rfl
  · split
    · exact List.getElem?_eq_none (by omega)
    · rfl

omit [StableStore σ] in
theorem Kept.entryAt? (hk : Kept d s) {i : Nat} (hlo : s.baseIndex ≤ i) (hhi : i ≤ s.lastIndex) :
    ∃ e, s.entryAt? i = some e ∧ (s.store.durable d).entryAt? i = some e := by
  obtain ⟨e, he⟩ := entryAt_ok hlo hhi hk.log_ne
  have hat := entryAt_eq_ok.mp he
  exact ⟨e, hat, (hk.entryAt?_eq i).trans hat⟩

/-- The entries are durable when an append is accepted. -/
theorem lwp_onAppend_vouched (hw : Working d s₀ s) : LWp {} (onAppend m) (EndsVouched d s₀) s := by
  refine LWp.bind (LWp.of_get (LWp.ite (fun _ => ?_) fun haccepts => LWp.bind (LWp.of_modify ?_)))
  · exact lwp_answer_free hw ⟨MessageType.noConfusion, fun _ => rfl⟩
  have hprev : s.termAt m.logIndex = some m.logTerm := by
    simp only [Node.rejectsAppend, Bool.or_eq_true, not_or, decide_eq_true_eq, ne_eq, not_not]
      at haccepts
    exact haccepts.1.2
  refine LWp.bind (lwp_storeEntry_working (Working.of_held hw rfl) hprev (fun s₁ hs₁ hreaches => ?_)
    fun s' hs' => LWp.of_pure (Or.inl hs'))
  refine LWp.bind (lwp_followCommit_working hs₁ (fun s₂ hs₂ hlog hbase => ?_) fun s' hs' =>
    LWp.of_pure (Or.inl hs'))
  refine (lwp_send_promised hs₂.vouched ?_).mono fun _ _ => Or.inr
  have hmatched : m.matched ≤ s₂.lastIndex := by
    unfold Node.lastIndex at hreaches ⊢
    rw [hlog, hbase]
    exact hreaches
  refine ⟨?_, fun _ _ => ⟨hmatched, fun i hlo hhi => ?_⟩, ?_, ?_⟩
  · exact MessageType.noConfusion
  · exact hs₂.toKept.entryAt? (Nat.le_of_lt hlo) (Nat.le_trans hhi hmatched)
  · exact MessageType.noConfusion
  · exact MessageType.noConfusion

theorem lwp_onAppendResponse_vouched (hw : Working d s₀ s) :
    LWp {} (onAppendResponse m) (EndsVouched d s₀) s := by
  refine LWp.bind (lwp_confirmRead False.elim False.elim fun acks index ready =>
    LWp.bind (LWp.of_get ?_))
  have hs₁ : Working d s₀ { s with readAckMask := acks, readIndex := index, readReady := ready } :=
    hw.of_held rfl
  refine LWp.ite (fun _ => LWp.of_pure (hs₁.ends _)) fun _ => LWp.ite (fun _ => ?_) fun _ => ?_
  · refine LWp.bind (LWp.of_modify (LWp.mono (Q := fun _ => Vouched d s₀)
      (lwp_appendToContext_vouched ?_) fun _ _ => Or.inr))
    split
    · exact hs₁.vouched.of_held rfl
    · exact hs₁.vouched
  · refine LWp.bind (LWp.of_modify (LWp.bind (lwp_advanceCommit_vouched (Working.of_held hs₁ rfl)
      (fun s₂ hs₂ => ?_) fun s' hs' => LWp.of_pure (Or.inl hs'))))
    exact LWp.bind (LWp.of_get (LWp.ite (fun _ => LWp.of_pure (Or.inr hs₂)) fun _ =>
      LWp.ite (fun _ => (lwp_appendToContext_vouched hs₂).mono fun _ _ => Or.inr) fun _ =>
        LWp.of_pure (Or.inr hs₂)))

/-- The snapshot is durable, and the log fenced at it, when a snapshot is accepted. -/
theorem lwp_onInstallSnapshot_vouched (hw : Working d s₀ s) :
    LWp {} (onInstallSnapshot m) (EndsVouched d s₀) s := by
  refine LWp.bind (LWp.of_get (LWp.ite (fun _ => ?_) fun _ => LWp.bind (LWp.bind (LWp.of_get ?_))))
  · exact lwp_answer_free hw ⟨MessageType.noConfusion, fun _ => rfl⟩
  have hend : ∀ s₁ : Node (Recorder σ), Working d s₀ s₁ → LWp {} (do
      modify fun n : Node (Recorder σ) => { n with
        state := .follower, leader := m.fromID, elapsed := 0 }
      let n ← get
      send {
        type := .installSnapshotResponse, fromID := n.id, toID := m.fromID, term := n.term
        matchIndex := n.baseIndex }) (EndsVouched d s₀) s₁ := by
    intro s₁ hs₁
    refine LWp.bind (LWp.of_modify (LWp.bind (LWp.of_get ?_)))
    refine LWp.mono (lwp_send_promised (Vouched.of_held hs₁.vouched rfl) ?_) fun _ _ => Or.inr
    refine ⟨?_, ?_, fun _ _ => ⟨hs₁.snapshot, hs₁.base⟩, ?_⟩
    · exact MessageType.noConfusion
    · exact MessageType.noConfusion
    · exact MessageType.noConfusion
  refine LWp.ite (fun _ => LWp.of_pure (hend s hw)) fun hlt => LWp.bind ?_
  refine lwp_saveAndCompact_kept hw.toKept (Nat.le_of_not_le hlt) (fun store hk => ?_) fun s' hs' =>
    LWp.of_pure (LWp.of_pure (Or.inl hs'))
  refine LWp.bind (LWp.of_modify (LWp.of_pure (hend _ ?_)))
  have hk' := hk (max s.commit m.snapshotIndex) (Nat.le_refl _)
  exact { Kept.of_eq hk' rfl rfl rfl rfl with free := hw.free }

omit [StableStore σ] in
theorem lwp_onInstallSnapshotResponse_vouched (hw : Working d s₀ s) :
    LWp {} (onInstallSnapshotResponse m) (EndsVouched d s₀) s := by
  refine lwp_onInstallSnapshotResponse False.elim False.elim (hw.ends _) fun _ _ _ t ht => ?_
  have hv : Vouched d s₀ t := by
    rcases ht with rfl | ⟨_, rfl⟩
    · exact hw.vouched
    · exact hw.vouched.of_held rfl
  exact ⟨Or.inr hv, (lwp_appendToContext_vouched hv).mono fun _ _ => Or.inr⟩

theorem lwp_step_vouched (hw : Working d s₀ s) : LWp {} (step m) (EndsVouched d s₀) s := by
  refine LWp.bind (LWp.of_get (LWp.ite (fun _ => LWp.of_pure (hw.ends _)) fun _ => ?_))
  have hadopt : LWp {} (adoptTerm m) (fun ok s' => if ok then Working d s₀ s' else s'.Stopped) s := by
    refine LWp.bind (LWp.of_get (LWp.ite (fun _ => LWp.of_pure hw) fun _ => LWp.bind ?_))
    refine lwp_hard_working s.commit hw (Nat.le_refl _) (fun store _ hw₁ => ?_) fun s' hs' =>
      LWp.of_pure hs'
    exact LWp.bind (LWp.of_modify (LWp.of_pure (hw₁.of_held rfl)))
  refine LWp.bind (hadopt.mono fun ok s₁ hs₁ => LWp.ite (fun hno => LWp.of_pure (Or.inl ?_))
    fun hyes => ?_)
  · rwa [if_neg (by simpa using hno)] at hs₁
  rw [if_pos (by simpa using hyes)] at hs₁
  cases m.type with
  | preVote => exact lwp_onPreVote_vouched hs₁
  | preVoteResponse =>
    exact lwp_onPreVoteResponse False.elim False.elim
      (fun _ => Or.inr (Vouched.of_held hs₁.vouched rfl)) fun _ _ =>
        lwp_startElection_vouched (Working.of_held hs₁ rfl)
  | requestVote => exact lwp_onVote_vouched hs₁
  | requestVoteResponse =>
    exact lwp_onVoteResponse False.elim False.elim
      (fun _ => Or.inr (Vouched.of_held hs₁.vouched rfl)) fun _ =>
        lwp_becomeLeader_vouched (Working.of_held hs₁ rfl)
  | append => exact lwp_onAppend_vouched hs₁
  | appendResponse => exact lwp_onAppendResponse_vouched hs₁
  | installSnapshot => exact lwp_onInstallSnapshot_vouched hs₁
  | installSnapshotResponse => exact lwp_onInstallSnapshotResponse_vouched hs₁
  | timeoutNow =>
    exact LWp.bind (LWp.of_get (LWp.ite (fun _ => lwp_startElection_vouched hs₁) fun _ =>
      LWp.of_pure (hs₁.ends _)))
  | other code => exact LWp.of_pure (hs₁.ends _)

/-! ## Operations -/

/-- What an operation leaves behind: the queue is empty, or it has grown, and what is new in it is
vouched for. -/
structure Proceeds (d : Durable) (s s' : Node (Recorder σ)) : Prop extends Kept d s' where
  grown : s'.outbound = [] ∨ s.outbound <+: s'.outbound
  sent : ∀ m ∈ s'.outbound.drop s.outbound.length, Promised d s' m

omit [StableStore σ] in
theorem EndsVouched.proceeds {a : α} (h : EndsVouched d s a s') : s'.Stopped ∨ Proceeds d s s' :=
  h.imp_right fun hv => by
    obtain ⟨new, hout, hsent⟩ := hv.sent
    refine { hv.toKept with grown := .inr ⟨new, hout.symm⟩, sent := ?_ }
    rwa [hout, List.drop_left]

/-- The entry of a client. -/
theorem lwp_proposeEntry_vouched {e : Entry} (hw : Working d s₀ s) : LWp {} (do
    if !(← appendLocal e) then return false
    broadcastAppend
    return true) (EndsVouched d s₀) s := by
  refine LWp.bind (lwp_appendLocal_working hw (fun s₁ hs₁ => LWp.bind ?_) fun s' hs' =>
    LWp.of_pure (Or.inl hs'))
  exact (lwp_broadcastAppend_vouched hs₁.vouched).mono fun _ _ hs₂ => LWp.of_pure (Or.inr hs₂)

/-- The entry of a change of voters. -/
theorem lwp_proposeConfig_vouched {e : Entry} (hw : Working d s₀ s) : LWp {} (do
    if !(← appendLocal e) then return false
    modify fun n : Node (Recorder σ) => { n with pendingConfig := n.lastIndex }
    broadcastAppend
    return true) (EndsVouched d s₀) s := by
  refine LWp.bind (lwp_appendLocal_working hw (fun s₁ hs₁ => LWp.bind (LWp.of_modify (LWp.bind ?_)))
    fun s' hs' => LWp.of_pure (Or.inl hs'))
  exact LWp.mono (lwp_broadcastAppend_vouched (Vouched.of_held hs₁.vouched rfl)) fun _ _ hs₂ =>
    LWp.of_pure (Or.inr hs₂)

theorem lwp_compact_vouched {index : Nat} {state : List UInt8} (hw : Working d s₀ s) :
    LWp {} (compact index state) (EndsVouched d s₀) s := by
  refine LWp.bind (LWp.of_get (LWp.ite (fun _ => LWp.of_pure (hw.ends _)) fun hin => ?_))
  cases hterm : s.termAt index with
  | none => exact LWp.of_pure (hw.ends _)
  | some term =>
    simp only [Bool.or_eq_true, decide_eq_true_eq, not_or] at hin
    refine LWp.bind (lwp_saveAndCompact_kept hw.toKept (Nat.le_of_not_le hin.1) (fun store hk => ?_)
      fun s' hs' => LWp.of_pure (Or.inl hs'))
    refine LWp.bind (LWp.of_modify (LWp.of_pure (Or.inr (Working.vouched ?_))))
    have hk' := hk s.commit (Nat.le_max_left _ _)
    have hlog : s.logBehind {
        lastIndex := index, lastTerm := term, state := state
        oldVoters := s.votersOld, newVoters := s.votersNew } = s.log.drop (index - s.baseIndex) := by
      unfold Node.logBehind
      exact if_pos hterm
    rw [hlog] at hk'
    exact { Kept.of_eq hk' rfl rfl rfl rfl with free := hw.free }

/-- An operation that is not stopped by its store sends only what it can vouch for. -/
theorem lwp_exec_vouched {op : Op} (hk : Kept d s) :
    LWp {} op.exec (fun _ s' => s'.Stopped ∨ Proceeds d s s') s := by
  have hend : ∀ {β : Type} {f : NodeM (Recorder σ) β} (g : β → Output),
      LWp {} f (EndsVouched d s) s →
      LWp {} (do return g (← f)) (fun _ s' => s'.Stopped ∨ Proceeds d s s') s := fun g hw =>
    LWp.map g (hw.mono fun _ _ hs' => hs'.proceeds)
  have hw := hk.working
  have hsame : ∀ {β : Type} (b : β), EndsVouched d s b s := hw.ends
  cases op with
  | tick =>
    refine hend (fun _ => .nothing) (lwp_tick (fun _ => Or.inr (Vouched.of_held hw.vouched rfl))
      (fun _ => ?_) fun _ _ => lwp_startPreVote_vouched (Working.of_held hw rfl))
    exact LWp.mono (lwp_broadcastAppend_vouched (Vouched.of_held hw.vouched rfl)) fun _ _ => Or.inr
  | step m => exact hend (fun _ => .nothing) (lwp_step_vouched hw)
  | propose command =>
    exact hend .accepted (LWp.bind (LWp.of_get (LWp.ite (fun _ => LWp.of_pure (hsame _)) fun _ =>
      lwp_proposeEntry_vouched hw)))
  | proposeRequest operation clientID requestID key value =>
    exact hend .accepted (LWp.bind (LWp.of_get (LWp.ite (fun _ => LWp.of_pure (hsame _)) fun _ =>
      lwp_proposeEntry_vouched hw)))
  | proposeJoint ids =>
    refine hend .accepted (LWp.bind (lwp_ask False.elim fun mask _ => ?_))
    cases mask with
    | none => exact LWp.of_pure (hsame _)
    | some mask =>
      refine LWp.bind (LWp.of_get (LWp.ite (fun _ => LWp.of_pure (hsame _)) fun _ =>
        LWp.bind (LWp.of_modify ?_)))
      exact lwp_proposeConfig_vouched (hw.ensurePeers mask)
  | proposeFinal =>
    exact hend .accepted (LWp.bind (LWp.of_get (LWp.ite (fun _ => LWp.of_pure (hsame _)) fun _ =>
      lwp_proposeConfig_vouched hw)))
  | transferLeadership target =>
    refine hend .accepted (lwp_transferLeadership False.elim False.elim (hsame _) ?_ ?_)
    · exact (lwp_appendToContext_vouched hw.vouched).mono fun _ _ => Or.inr
    · exact lwp_answer_free hw ⟨MessageType.noConfusion, by simp⟩
  | startReadIndex context =>
    refine hend .accepted (lwp_startReadIndex False.elim (hsame _) fun _ _ _ _ => ?_)
    refine LWp.mono (LWp.forM (I := Vouched d s) (fun p _ s' hs' => lwp_appendToContext_vouched hs')
      ?_) fun _ _ => Or.inr
    exact hw.vouched.of_held rfl
  | applyEntries =>
    refine hend .entries (lwp_iff.mpr fun out s' hrun => ?_)
    obtain ⟨rfl, _⟩ := applyEntries_ok hrun
    exact Or.inr (Vouched.of_held hw.vouched rfl)
  | compact index state => exact hend .accepted (lwp_compact_vouched hw)
  | drain =>
    have hk' : Kept d { s with outbound := [] } := hk.of_eq rfl rfl rfl rfl
    refine LWp.of_ok rfl (Or.inr { hk' with grown := .inl rfl, sent := fun m hm => ?_ })
    rw [List.drop_nil] at hm
    cases hm

end Handlers

/-! ## Runs -/

/-- What opening a store found. -/
def Recovery.durable (recovery : Recovery) : Durable where
  hard := recovery.hard
  base := recovery.snapshot.lastIndex
  data := (if recovery.snapshot.lastIndex ≠ 0 then { term := recovery.snapshot.lastTerm } else {}) ::
    recovery.suffix
  snapshot := recovery.snapshot

/-- A node over a store that has not been called yet, new or rebuilt from what is durable. -/
inductive Starts : Durable → Node (Recorder σ) → Prop
  | new {id timeout : Nat} {peers : List Nat} {store : σ} {n : Node (Recorder σ)}
    (hnew : newNodeWithStore id peers timeout { store := store } = .ok n) : Starts {} n
  | rebuilt {id timeout : Nat} {peers : List Nat} {store : σ} {recovery : Recovery}
    {n : Node (Recorder σ)} (hrec : recover id peers timeout { store := store } recovery = .ok n) :
    Starts recovery.durable n

section Starting

theorem lwp_restore_held {s : Node σ} :
    LWp {} restore (fun _ s' => s'.Stopped ∨ s'.held = s.held) s := by
  refine LWp.bind (LWp.of_get (LWp.ite (fun _ => lwp_failStorage fun _ h => Or.inl h) fun _ => ?_))
  -- the loop adds peers
  have hloop : ∀ (l : List Nat) (f : Folded) (t : Node σ), t.held = s.held →
      LWp {} (restoreLoop l f) (fun _ s' => s'.held = s.held) t := by
    intro l
    induction l with
    | nil => exact fun f t ht => LWp.of_pure ht
    | cons i l ih =>
      intro f t ht
      refine LWp.bind (lwp_ask False.elim fun e _ => LWp.bind (LWp.of_get ?_))
      cases foldEntry t.commit i f e with
      | none => exact LWp.of_pure ht
      | some f' =>
        refine LWp.bind (LWp.of_modify (ih f' _ ?_))
        obtain ⟨_, _, _, heq⟩ := ensurePeers_eq (e.oldVoters ||| e.newVoters) t
        rw [heq]
        exact ht
  refine LWp.bind (LWp.bind (LWp.of_get (LWp.bind ((hloop _ _ s rfl).mono fun found s₁ hs₁ => ?_))))
  cases found with
  | none => exact LWp.of_pure (lwp_failStorage fun _ h => Or.inl h)
  | some f => exact LWp.bind (LWp.of_modify (LWp.of_pure (LWp.of_pure (Or.inr hs₁))))

theorem lwp_restoreSnapshot_held {s : Node σ} {hard : HardState} {snapshot : Snapshot}
    {suffix : List Entry} : LWp {} (restoreSnapshot hard snapshot suffix) (fun _ s' => s'.Stopped ∨
      s'.held = ({ term := snapshot.lastTerm } :: suffix, snapshot.lastIndex,
        max hard.commit snapshot.lastIndex, s.store, s.outbound)) s := by
  refine LWp.bind (LWp.of_modify (LWp.ite (fun _ => lwp_failStorage fun _ h => Or.inl h) fun _ => ?_))
  refine LWp.bind (LWp.of_modify ?_)
  obtain ⟨_, _, _, heq⟩ := ensurePeers_eq (snapshot.oldVoters ||| snapshot.newVoters) { s with
    term := hard.term, votedFor := hard.votedFor
    baseIndex := snapshot.lastIndex, baseTerm := snapshot.lastTerm, snapshot := snapshot
    votersOld := snapshot.oldVoters, votersNew := snapshot.newVoters }
  rw [heq]
  exact LWp.bind (LWp.of_modify lwp_restore_held)

/-- A node over a store that has not been called. -/
theorem kept_of_held {base commit : Nat} {log : List Entry} {store : σ}
    (hheld : s.held = (log, base, commit, { store := store }, [])) (hne : log ≠ [])
    (hdata : d.data = log) (hbase : d.base = base) (hsnapshot : d.snapshot.lastIndex = base)
    (hcommit : commit ≤ max d.hard.commit base) : Kept d s ∧ s.outbound = [] := by
  simp only [Node.held, Prod.mk.injEq] at hheld
  obtain ⟨rfl, rfl, rfl, hstore, hout⟩ := hheld
  have hd : s.store.durable d = d := by
    rw [hstore]
    rfl
  refine ⟨⟨?_, hne, ?_, ?_, ?_, ?_⟩, hout⟩
  · rw [hstore]
    exact fun _ h => nomatch h
  · rwa [hd]
  · rwa [hd]
  · rwa [hd]
  · rwa [hd]

/-- A node that starts holds what is durable and has nothing to send, or is stopped. -/
theorem Starts.kept (hstart : Starts d s) : s.Stopped ∨ Kept d s ∧ s.outbound = [] := by
  cases hstart with
  | new hnew =>
    obtain ⟨voters, _, rfl⟩ := newNodeWithStore_cases hnew
    exact Or.inr (kept_of_held rfl (List.cons_ne_nil _ _) rfl rfl rfl (Nat.zero_le _))
  | rebuilt hrec =>
    rename_i id timeout peers store recovery
    unfold recover at hrec
    split at hrec
    · rename_i hsnap
      obtain ⟨n, hn, hrec⟩ := bind_eq_ok.mp hrec
      obtain ⟨voters, _, rfl⟩ := newNodeWithStore_cases hn
      refine (lwp_restoreSnapshot_held.elim (built_eq_ok hrec)).imp_right fun hheld =>
        kept_of_held hheld (List.cons_ne_nil _ _) ?_ rfl rfl (Nat.le_refl _)
      show (if recovery.snapshot.lastIndex ≠ 0 then _ else _) :: recovery.suffix = _
      rw [if_pos hsnap]
    · rename_i hsnap
      obtain ⟨n, hn, hrec⟩ := bind_eq_ok.mp hrec
      obtain ⟨voters, _, rfl⟩ := newNodeWithStore_cases hn
      have hzero : recovery.snapshot.lastIndex = 0 := not_not.mp hsnap
      refine (lwp_restore_held.elim (built_eq_ok hrec)).imp_right fun hheld =>
        kept_of_held hheld (List.cons_ne_nil _ _) ?_ hzero hzero (Nat.le_max_left _ _)
      show (if recovery.snapshot.lastIndex ≠ 0 then _ else _) :: recovery.suffix = _
      rw [if_neg hsnap]

end Starting

section Running

variable [StableStore σ]

/-- One operation that does not panic. -/
def Node.next? (s : Node σ) (op : Op) : Option (Node σ) :=
  match op.exec s with
  | .ok _ s' => some s'
  | .error .. => none

theorem next?_eq_some {s s' : Node σ} {op : Op} :
    s.next? op = some s' ↔ ∃ out, op.exec s = .ok out s' := by
  unfold Node.next?
  cases op.exec s with
  | ok out t => simp
  | error e t => simp

theorem run_stopped_next {s s' : Node σ} {ops : List Op} (hs : s.Stopped)
    (hrun : Runs.run Node.next? s ops = some s') : s'.Stopped := by
  refine Runs.run_invariant (p := fun _ _ => True) (fun s op s' hs _ hnext => ?_) hs
    (Runs.always_of_forall fun _ _ => trivial) hrun
  obtain ⟨out, hexec⟩ := next?_eq_some.mp hnext
  exact (lwp_exec_stopped op hs).elim hexec

/-- An operation of the run put the message into the queue, and at its end what the message promises
was durable. -/
def Vouches (d : Durable) (s₀ : Node (Recorder σ)) (ops : List Op) (m : Message) : Prop :=
  ∃ front op back t t', ops = front ++ op :: back ∧ Runs.run Node.next? s₀ front = some t ∧
    t.next? op = some t' ∧ m ∈ t'.outbound.drop t.outbound.length ∧ Promised d t' m

theorem run_vouches {ops : List Op} (hstart : Starts d s₀)
    (hrun : Runs.run Node.next? s₀ ops = some s) :
    s.Stopped ∨ Kept d s ∧ ∀ m ∈ s.outbound, Vouches d s₀ ops m := by
  -- the last operation is the one that may have sent something new
  induction ops using List.reverseRecOn generalizing s with
  | nil =>
    cases hrun
    refine hstart.kept.imp_right fun h => ⟨h.1, ?_⟩
    rw [h.2]
    exact fun _ h => nomatch h
  | append_singleton front op ih =>
    rw [Runs.run_append] at hrun
    obtain ⟨s₁, hfront, hlast⟩ := Option.bind_eq_some_iff.mp hrun
    obtain ⟨_, hnext, hdone⟩ := Runs.run_cons.mp hlast
    cases hdone
    obtain ⟨out, hexec⟩ := next?_eq_some.mp hnext
    rcases ih hfront with hstopped | ⟨hk, hvouched⟩
    · exact Or.inl ((lwp_exec_stopped op hstopped).elim hexec)
    · refine ((lwp_exec_vouched hk).elim hexec).imp_right fun hp => ⟨hp.toKept, fun m hm => ?_⟩
      rcases hp.grown with hempty | ⟨new, hout⟩
      · rw [hempty] at hm
        cases hm
      · rw [← hout] at hm
        rcases List.mem_append.mp hm with hold | hnew
        · obtain ⟨front', op', back, t, t', rfl, hsent⟩ := hvouched m hold
          exact ⟨front', op', back ++ [op], t, t', by simp, hsent⟩
        · have hqueued : m ∈ s.outbound.drop s₁.outbound.length := by
            rwa [← hout, List.drop_left]
          exact ⟨front, op, [], s₁, s, rfl, hfront, hnext, hqueued, hp.sent m hqueued⟩

/-- A node is started over a store whose calls may fail at any point. Whatever it is asked, a
message that is drained was put into the queue by an operation at whose end what it promises was
durable; and when anything is drained, the durable log and the one in memory are the same, and the
commit index is durable. Once a call has failed, nothing is ever drained again. -/
theorem durability_precedes_promises {ops : List Op} (hstart : Starts d s₀)
    (hrun : Runs.run Node.next? s₀ ops = some s) :
    (∀ messages s', Op.exec .drain s = .ok (.messages messages) s' →
      ∀ m ∈ messages, Vouches d s₀ ops m ∧
        (∀ i, (s.store.durable d).entryAt? i = s.entryAt? i) ∧
        s.commit ≤ max (s.store.durable d).hard.commit (s.store.durable d).snapshot.lastIndex) ∧
    ((∃ call, (call, false) ∈ s.store.calls) → ∀ more s' messages s'',
      Runs.run Node.next? s more = some s' →
      Op.exec .drain s' = .ok (.messages messages) s'' → messages = []) := by
  have hs := run_vouches hstart hrun
  refine ⟨fun messages s' hdrain m hm => ?_, fun hfailed more s' messages s'' hmore hdrain => ?_⟩
  · cases hdrain
    rcases hs with hstopped | ⟨hk, hvouched⟩
    · rw [hstopped.silent] at hm
      cases hm
    · refine ⟨hvouched m hm, fun i => hk.entryAt?_eq i, ?_⟩
      rw [hk.snapshot]
      exact hk.commit
  · obtain ⟨call, hcall⟩ := hfailed
    have hstopped : s.Stopped := hs.resolve_right fun h => Bool.false_ne_true (h.1.done _ hcall)
    cases hdrain
    exact (run_stopped_next hstopped hmore).silent

end Running

/-! A new node of three grants a vote. -/

def votingNode : Node (Recorder Disk) where
  id := 2
  peers := [1, 3]
  timeout := 5
  votersOld := 7
  store := { store := {} }

def voteRequest : Message := { type := .requestVote, fromID := 1, toID := 2, term := 1 }

def grantedVote : Message := { type := .requestVoteResponse, fromID := 2, toID := 1, term := 1 }

theorem durability_precedes_promises_vote : ∃ s s' : Node (Recorder Disk),
    Runs.run Node.next? votingNode [.step voteRequest] = some s ∧
    Op.exec .drain s = .ok (.messages [grantedVote]) s' ∧
    Vouches {} votingNode [.step voteRequest] grantedVote := by
  have hnew : newNodeWithStore 2 [1, 3] 5 ({ store := {} } : Recorder Disk) = .ok votingNode := rfl
  obtain ⟨s, hrun, hout⟩ := Runs.run_check Node.next? votingNode [.step voteRequest]
    (fun s => s.outbound = [grantedVote]) (by decide +kernel)
  have hdrain : Op.exec .drain s = .ok (.messages [grantedVote]) { s with outbound := [] } := by
    rw [← hout]
    rfl
  obtain ⟨hvouches, _⟩ := durability_precedes_promises (.new hnew) hrun
  exact ⟨s, _, hrun, hdrain, (hvouches _ _ hdrain _ List.mem_cons_self).1⟩

end Promtact.Raft
