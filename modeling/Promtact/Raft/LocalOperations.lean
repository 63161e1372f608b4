import Promtact.Raft.Local

/-!
# One node, operation by operation

Every operation keeps what is `Local` to a node, or stops the node. The conditions that
the facts need are collected in `OpLocal`.
-/

namespace Promtact.Raft

open GhostState
open Function (update)
open Node (indexes)

variable {σ : Type} {W : Watch} {s s' : Node σ} {m : Message}

/-! ## Longer logs -/

section Concat

variable {e : Entry}

theorem lastIndex_concat (hlog : s.log ≠ []) :
    ({ s with log := s.log ++ [e] } : Node σ).lastIndex = s.lastIndex + 1 := by
  have := List.length_pos_iff.mpr hlog
  unfold Node.lastIndex
  simp only [List.length_append, List.length_singleton]
  omega

theorem entryAt?_concat_of_le (hlog : s.log ≠ []) {i : Nat} (hi : i ≤ s.lastIndex) :
    ({ s with log := s.log ++ [e] } : Node σ).entryAt? i = s.entryAt? i := by
  have hpos := List.length_pos_iff.mpr hlog
  have hlast := lastIndex_concat (e := e) hlog
  unfold Node.entryAt? Node.offset
  rw [hlast]
  by_cases hlo : i < s.baseIndex
  · rw [if_pos (Or.inl hlo), if_pos (Or.inl hlo)]
    rfl
  · rw [if_neg (by simp only []; omega), if_neg (by omega)]
    unfold Node.lastIndex at hi
    exact List.getElem?_append_left (by simp only []; omega)

theorem configAt_concat (hlog : s.log ≠ []) {i : Nat} (hi : i ≤ s.lastIndex) :
    ({ s with log := s.log ++ [e] } : Node σ).ConfigAt i ↔ s.ConfigAt i := by
  unfold Node.ConfigAt
  rw [entryAt?_concat_of_le hlog hi]

theorem entryAt?_concat (hlog : s.log ≠ []) :
    ({ s with log := s.log ++ [e] } : Node σ).entryAt? (s.lastIndex + 1) = some e := by
  have hpos := List.length_pos_iff.mpr hlog
  have hlast := lastIndex_concat (e := e) hlog
  unfold Node.entryAt? Node.offset
  have hoff : s.lastIndex + 1 - s.baseIndex = s.log.length := by
    unfold Node.lastIndex
    omega
  rw [hlast, if_neg (by simp only []; omega)]
  simp only [Option.bind_eq_bind, Option.bind_some, hoff]
  simp

theorem configAt_concat_last (hlog : s.log ≠ []) :
    ({ s with log := s.log ++ [e] } : Node σ).ConfigAt (s.lastIndex + 1) ↔ e.isConfig = true := by
  unfold Node.ConfigAt
  rw [entryAt?_concat hlog]
  simp

theorem Body.concat (hb : Body W s)
    (hknown : W.known → e.isConfig = true → s.Knows (e.oldVoters ||| e.newVoters)) :
    Body W { s with log := s.log ++ [e] } := { hb with
  log_ne := by simp
  bounds := fun hs => by
    obtain ⟨hbase, happlied, hcommit⟩ := hb.bounds hs
    refine ⟨hbase, happlied, ?_⟩
    rw [lastIndex_concat hb.log_ne]
    exact Nat.le_succ_of_le hcommit
  entries := fun hk e' he' hc => by
    rcases List.mem_append.mp he' with hold | hnew
    · exact hb.entries hk e' hold hc
    · rw [List.mem_singleton] at hnew
      subst hnew
      exact hknown hk hc
  kept := fun i e' hk => by
    obtain ⟨happlied, hat⟩ := hb.kept i e' hk
    exact ⟨happlied, (entryAt?_concat_of_le hb.log_ne (entryAt?_inLog hat).2.1).trans hat⟩ }

/-- An entry whose voters become peers. -/
theorem Body.concat_ensurePeers (hb : Body W s) (pending : Nat) :
    Body W (({ s with log := s.log ++ [e], pendingConfig := pending } : Node σ).ensurePeers
      (e.oldVoters ||| e.newVoters)) := by
  obtain ⟨hkept, hknows⟩ := ensurePeers_knows (e.oldVoters ||| e.newVoters)
    ({ s with log := s.log ++ [e], pendingConfig := pending } : Node σ)
  have htame := Tame.ensurePeers (s := { s with log := s.log ++ [e], pendingConfig := pending })
    hb.tame (e.oldVoters ||| e.newVoters)
  have hcore := ensurePeers_core (e.oldVoters ||| e.newVoters)
    ({ s with log := s.log ++ [e], pendingConfig := pending } : Node σ)
  generalize Node.ensurePeers _ _ = t at hkept hknows htame hcore ⊢
  have hid : t.id = s.id := congrArg Prod.fst hcore
  have hb' : Body W { s with peers := t.peers } := { hb with
    tame := htame
    voters := fun hk => (hb.voters hk).mono rfl hkept
    entries := fun hk e' he' hc => (hb.entries hk e' he' hc).mono rfl hkept }
  have hb'' : Body W { s with peers := t.peers, log := s.log ++ [e], pendingConfig := pending } :=
    { hb'.concat (e := e) fun _ _ => hknows.mono hid.symm fun _ hp => hp with }
  exact hb''.of_core hcore

theorem Node.Tracks.concat (hlog : s.log ≠ []) {k : Nat} (ht : s.Tracks k s.lastIndex)
    (hno : e.isConfig = false) :
    ({ s with log := s.log ++ [e] } : Node σ).Tracks k
      ({ s with log := s.log ++ [e] } : Node σ).lastIndex := by
  rw [lastIndex_concat hlog]
  have hsame : ({ s with log := s.log ++ [e] } : Node σ).Tracks k s.lastIndex :=
    ht.of_same rfl fun i _ hi => configAt_concat hlog hi
  refine hsame.extend fun hc => ?_
  rw [configAt_concat_last hlog, hno] at hc
  cases hc

end Concat

/-- The node is a quorum by itself once the entry is in its log. -/
def Node.commitsAlone (s : Node σ) (e : Entry) : Bool :=
  ({ s with log := s.log ++ [e] } : Node σ).quorumMask (bitOf s.id) = .ok true

/-! ## Answers -/

/-- The end of every operation. -/
abbrev EndsSafe (W : Watch) {α : Type} (_ : α) (s : Node σ) : Prop := Safe W s

theorem lwp_upToDate {Q : Bool → Node σ → Prop} (hlog : W.total → s.log ≠ []) (hq : ∀ b, Q b s) :
    LWp W (upToDate m) Q s := by
  refine LWp.bind (LWp.of_get (LWp.bind (lwp_ask (fun ht => termAtMust_ok ?_ (Nat.le_refl _) (hlog ht))
    fun _ _ => LWp.of_pure (hq _))))
  have hpos := List.length_pos_iff.mpr (hlog ht)
  unfold Node.lastIndex
  omega

/-- The last message of an operation. -/
theorem lwp_answer (hl : Local W s) : LWp W (send m) (EndsSafe W) s :=
  lwp_send fun _ hs' => Or.inr (hl.of_core hs'.core)

/-- An answer of a voter is counted, and may complete a quorum. -/
theorem lwp_count {u : Word → Node σ → Node σ} {q : Node σ → Word} {next : NodeM σ Unit} {stale : Bool}
    {Q : Unit → Node σ → Prop} (hlog : W.total → s.log ≠ []) (hu : ∀ bit, (u bit s).log = s.log)
    (hfrom : W.total → 0 < m.fromID ∧ m.fromID ≤ 64) (hsame : Q ⟨⟩ s) (hq : ∀ bit, Q ⟨⟩ (u bit s))
    (hnext : ∀ bit, LWp W next Q (u bit s)) : LWp W (do
      if !(← ask (·.isVoter m.fromID)) then return
      if stale then return
      let bit ← ask fun _ => nodeBit m.fromID
      modify (u bit)
      if ← ask fun n => n.quorumMask (q n) then next) Q s := by
  refine LWp.bind (lwp_ask (fun ht => isVoter_ok (hlog ht) (hfrom ht)) fun _ _ =>
    LWp.ite (fun _ => LWp.of_pure hsame) fun _ => LWp.ite (fun _ => LWp.of_pure hsame) fun _ => ?_)
  refine LWp.bind (lwp_ask (fun ht => ⟨_, nodeBit_of_range (hfrom ht).1 (hfrom ht).2⟩) fun bit _ => ?_)
  have hask : W.total → ∃ b, (u bit s).quorumMask (q (u bit s)) = .ok b := fun ht =>
    quorumMask_ok (by rw [hu]; exact hlog ht) _
  exact LWp.bind (LWp.of_modify (LWp.bind (lwp_ask hask fun _ _ =>
    LWp.ite (fun _ => hnext bit) fun _ => LWp.of_pure (hq bit))))

theorem lwp_onPreVote {Q : Unit → Node σ → Prop} (hlog : W.total → s.log ≠ [])
    (hfrom : W.total → 0 < m.fromID ∧ m.fromID ≤ 64) (hanswer : ∀ reject, LWp W (send {
      type := .preVoteResponse, fromID := s.id, toID := m.fromID, term := m.term
      reject := reject }) Q s) : LWp W (onPreVote m) Q s := by
  refine LWp.bind (LWp.of_get (LWp.bind (lwp_upToDate hlog fun _ => ?_)))
  exact LWp.bind (lwp_ask (fun ht => isVoter_ok (hlog ht) (hfrom ht)) fun _ _ => hanswer _)

variable [StableStore σ]

/-! ## Committing -/

theorem lwp_commitTo {Q : Bool → Node σ → Prop} {i : Nat} (hl : Local W s)
    (hi : W.settled → s.commit ≤ i ∧ i ≤ s.lastIndex)
    (hok : ∀ s', Local W s' → Q true s') (hfailed : ∀ s' : Node σ, s'.Stopped → Q false s') :
    LWp W (commitTo i) Q s := by
  refine LWp.bind (LWp.of_get (LWp.bind (lwp_tryStore (fun store => ?_) fun s' hs' =>
    LWp.of_pure (hfailed s' hs'))))
  refine LWp.bind (LWp.of_modify (LWp.bind ?_))
  have hb : Body W { s with store := store, commit := i } := { hl.toBody with
    bounds := fun hs => by
      obtain ⟨hbase, happlied, _⟩ := hl.bounds hs
      exact ⟨hbase, Nat.le_trans happlied (hi hs).1, (hi hs).2⟩ }
  refine lwp_applyCommittedConfigurations hb (fun hs => ?_) (fun hs => (hi hs).1)
    (fun hs => (hi hs).2) hl.pending fun s' hb' hsame hpend => LWp.of_pure (hok s' ⟨hb', fun hp => ?_⟩)
  · obtain ⟨hbase, happlied, _⟩ := hl.bounds hs
    exact Nat.le_trans hbase happlied
  · rw [show s'.commit = i from hsame.2.2.1]
    exact hpend hp

theorem lwp_commitOwn {Q : Bool → Node σ → Prop} (hl : Local W s) (hok : ∀ s', Local W s' → Q true s')
    (hfailed : ∀ s' : Node σ, s'.Stopped → Q false s') : LWp W commitOwn Q s := by
  refine LWp.bind (LWp.of_get (LWp.bind (LWp.of_modify (LWp.bind ?_))))
  refine lwp_tryStore (fun store => ?_) fun s' hs' =>
    LWp.bind (LWp.of_modify (LWp.of_pure (hfailed _ { hs' with })))
  refine LWp.bind ?_
  have hb : Body W { s with store := store, commit := s.lastIndex } := { hl.toBody with
    bounds := fun hs => by
      obtain ⟨hbase, happlied, hcommit⟩ := hl.bounds hs
      exact ⟨hbase, Nat.le_trans happlied hcommit, Nat.le_refl _⟩ }
  refine lwp_applyCommittedConfigurations hb (fun hs => ?_) (fun hs => (hl.bounds hs).2.2)
    (fun _ => Nat.le_refl _) hl.pending fun s' hb' hsame hpend => LWp.of_pure (hok s' ⟨hb', fun hp => ?_⟩)
  · obtain ⟨hbase, happlied, _⟩ := hl.bounds hs
    exact Nat.le_trans hbase happlied
  · rw [show s'.commit = s.lastIndex from hsame.2.2.1]
    exact hpend hp

/-! ## Appending -/

/-- A leader appends an entry. Where the pending index is asked for, an entry that changes
the voters must not be committed at once. -/
theorem lwp_appendLocal {Q : Bool → Node σ → Prop} {e : Entry} (hl : Local W s)
    (hknown : W.known → e.isConfig = true → s.Knows (e.oldVoters ||| e.newVoters))
    (halone : W.pend → e.isConfig = true → s.commitsAlone e = false)
    (hok : ∀ s', Body W s' → (e.isConfig = false → Local W s') →
      (W.pend → e.isConfig = true → s'.commit < s'.lastIndex ∧ s'.ConfigAt s'.lastIndex) → Q true s')
    (hfailed : ∀ s' : Node σ, s'.Stopped → Q false s') : LWp W (appendLocal e) Q s := by
  refine LWp.bind (LWp.of_get (LWp.bind (lwp_tryStore (fun store => ?_) fun s' hs' =>
    LWp.of_pure (hfailed s' hs'))))
  refine LWp.bind (LWp.of_modify ?_)
  have hb : Body W { s with store := store, log := s.log ++ [e] } :=
    Body.concat (s := { s with store := store }) { hl.toBody with } hknown
  have hlocal : e.isConfig = false → Local W { s with store := store, log := s.log ++ [e] } :=
    fun hno => ⟨hb, fun hp => (hl.pending hp).concat hl.log_ne hno⟩
  refine LWp.bind (lwp_ask (fun _ => ⟨_, nodeBit_of_range hl.own.1 hl.own.2⟩) fun own hown => ?_)
  obtain ⟨_, _, rfl⟩ := range_of_nodeBit hown
  refine LWp.bind (lwp_ask (fun _ => quorumMask_ok hb.log_ne _) fun b hquorum =>
    LWp.ite (fun _ => LWp.of_pure (hok _ hb hlocal fun hp hc => ?_)) fun hyes => ?_)
  · have hlast := lastIndex_concat (s := { s with store := store }) (e := e) hl.log_ne
    rw [hlast]
    refine ⟨Nat.lt_succ_of_le (hl.bounds (W.pend_settled hp)).2.2, ?_⟩
    exact (configAt_concat_last (s := { s with store := store }) hl.log_ne).mpr hc
  · have hb' : b = true := by simpa using hyes
    subst hb'
    by_cases hc : e.isConfig = true
    · -- the pending index is not asked for, and the rest does not depend on it
      have hno : ¬ W.pend := fun hp => by
        have := halone hp hc
        unfold Node.commitsAlone at this
        rw [decide_eq_false_iff_not] at this
        exact this hquorum
      exact lwp_commitOwn ⟨hb, (absurd · hno)⟩ (fun s' hl' => hok s' hl'.toBody (fun _ => hl')
        (absurd · hno)) hfailed
    · have hno : e.isConfig = false := by simpa using hc
      exact lwp_commitOwn (hlocal hno) (fun s' hl' => hok s' hl'.toBody (fun _ => hl') fun _ hc' =>
        absurd hc' hc) hfailed

/-! ## Elections -/

theorem lwp_becomeLeader (hl : Local W s) : LWp W becomeLeader (EndsSafe W) s := by
  refine LWp.bind (LWp.of_modify (LWp.bind (LWp.of_get (LWp.bind ?_))))
  refine lwp_appendLocal (by exact hl.of_core rfl) (fun _ hc => by cases hc) (fun _ hc => by cases hc)
    (fun s' _ hl' _ => ?_) fun s' hs' => LWp.of_pure (Or.inl hs')
  refine LWp.bind (LWp.of_modify ?_)
  obtain ⟨nx, mt, heq, _⟩ := resetProgress_frame (s'.lastIndex + 1) s'.peers s'
  rw [heq]
  have hl'' : Local W { s' with next := nx, matchIndex := mt } := (hl' rfl).of_core rfl
  exact lwp_broadcastAppend hl''.toBody fun _ hs'' => Or.inr (hl''.of_core hs''.core)

omit [StableStore σ] in
/-- A node counts its own vote, asks its peers for theirs, and goes on if its own completes a
quorum. -/
theorem lwp_campaign {u : Word → Node σ → Node σ} {loop : Node σ → NodeM σ Unit} {q : Node σ → Word}
    {next : NodeM σ Unit} {I : Node σ → Prop} {Q : Unit → Node σ → Prop}
    (hown : W.total → 0 < s.id ∧ s.id ≤ 64) (hlog : W.total → ∀ s', I s' → s'.log ≠ [])
    (hloop : ∀ own, LWp W (loop (u own s)) (fun _ => I) (u own s)) (hq : ∀ s', I s' → Q ⟨⟩ s')
    (hnext : ∀ s', I s' → LWp W next Q s') : LWp W (do
      let own ← ask fun n => nodeBit n.id
      modify (u own)
      let n ← get
      loop n
      if ← ask fun n => n.quorumMask (q n) then next) Q s := by
  refine LWp.bind (lwp_ask (fun ht => ⟨_, nodeBit_of_range (hown ht).1 (hown ht).2⟩) fun own _ => ?_)
  refine LWp.bind (LWp.of_modify (LWp.bind (LWp.of_get (LWp.bind ((hloop own).mono fun _ s' hs' => ?_)))))
  exact LWp.bind (lwp_ask (fun ht => quorumMask_ok (hlog ht s' hs') _) fun _ _ =>
    LWp.ite (fun _ => hnext s' hs') fun _ => LWp.of_pure (hq s' hs'))

theorem lwp_startElection (hl : Local W s) : LWp W startElection (EndsSafe W) s := by
  refine LWp.bind (LWp.of_get (LWp.bind (lwp_tryStore (fun store => ?_) fun s' hs' =>
    LWp.of_pure (Or.inl hs'))))
  refine lwp_campaign (I := Local W) (fun _ => hl.own) (fun _ _ h => h.log_ne) (fun own => ?_)
    (fun _ => Or.inr) fun _ => lwp_becomeLeader
  exact lwp_canvass (by exact hl.toBody.of_core rfl) _ fun s' hs' => hl.of_core hs'.core

theorem lwp_startPreVote (hl : Local W s) : LWp W startPreVote (EndsSafe W) s := by
  refine lwp_campaign (I := Local W) (fun _ => hl.own) (fun _ _ h => h.log_ne) (fun own => ?_)
    (fun _ => Or.inr) fun _ => lwp_startElection
  exact lwp_canvass (by exact hl.toBody.of_core rfl) _ fun s' hs' => hl.of_core hs'.core

theorem lwp_tick {Q : Unit → Node σ → Prop} (hq : ∀ elapsed, Q ⟨⟩ { s with elapsed := elapsed })
    (hleads : s.state = .leader → LWp W broadcastAppend Q { s with elapsed := 0 })
    (haside : s.state ≠ .leader → ∀ elapsed, LWp W startPreVote Q { s with elapsed := elapsed }) :
    LWp W tick Q s := by
  have hsame : Q ⟨⟩ s := hq s.elapsed
  refine LWp.bind (LWp.of_get (LWp.ite (fun _ => LWp.of_pure hsame) fun _ => ?_))
  refine LWp.bind (LWp.of_modify (LWp.bind (LWp.of_get (LWp.ite (fun h => ?_) fun h => ?_))))
  · exact LWp.ite (fun _ => LWp.bind (LWp.of_modify (hleads h))) fun _ => LWp.of_pure (hq _)
  · exact LWp.ite (fun _ => haside h _) fun _ => LWp.of_pure (hq _)

/-! ## Votes -/

theorem lwp_onVote {Q : Unit → Node σ → Prop} (hlog : W.total → s.log ≠ [])
    (hfrom : W.total → 0 < m.fromID ∧ m.fromID ≤ 64) (hrefused : LWp W (send {
      type := .requestVoteResponse, fromID := s.id, toID := m.fromID, term := s.term
      reject := true }) Q s)
    (hgranted : LWp W (do
      if !(← persistHardState { term := s.term, votedFor := m.fromID, commit := s.commit }) then return
      modify fun n => { n with votedFor := m.fromID, elapsed := 0 }
      send { type := .requestVoteResponse, fromID := s.id, toID := m.fromID, term := s.term }) Q s) :
    LWp W (onVote m) Q s := by
  refine LWp.bind (LWp.of_get (LWp.bind (lwp_upToDate hlog fun _ => ?_)))
  exact LWp.bind (lwp_ask (fun ht => isVoter_ok (hlog ht) (hfrom ht)) fun _ _ =>
    LWp.ite (fun _ => hrefused) fun _ => hgranted)

theorem lwp_onPreVoteResponse {Q : Unit → Node σ → Prop} (hlog : W.total → s.log ≠ [])
    (hfrom : W.total → s.state ≠ .leader → 0 < m.fromID ∧ m.fromID ≤ 64)
    (hq : ∀ mask, Q ⟨⟩ { s with preVoteMask := mask })
    (hnext : s.state ≠ .leader → ∀ mask, LWp W startElection Q { s with preVoteMask := mask }) :
    LWp W (onPreVoteResponse m) Q s := by
  have hsame : Q ⟨⟩ s := hq s.preVoteMask
  refine LWp.bind (LWp.of_get (LWp.ite (fun _ => LWp.of_pure hsame) fun hstate => ?_))
  exact lwp_count hlog (fun _ => rfl) (fun ht => hfrom ht hstate) hsame (fun _ => hq _)
    fun _ => hnext hstate _

theorem lwp_onVoteResponse {Q : Unit → Node σ → Prop} (hlog : W.total → s.log ≠ [])
    (hfrom : W.total → s.state = .candidate → 0 < m.fromID ∧ m.fromID ≤ 64)
    (hq : ∀ mask, Q ⟨⟩ { s with voteMask := mask })
    (hnext : ∀ mask, LWp W becomeLeader Q { s with voteMask := mask }) :
    LWp W (onVoteResponse m) Q s := by
  have hsame : Q ⟨⟩ s := hq s.voteMask
  refine LWp.bind (LWp.of_get (LWp.ite (fun _ => LWp.of_pure hsame) fun hno => ?_))
  exact lwp_count hlog (fun _ => rfl) (fun ht => hfrom ht (not_not.mp hno)) hsame (fun _ => hq _)
    fun _ => hnext _

/-! ## Appends -/

omit [StableStore σ] in
/-- The pending index is found again. -/
theorem lwp_rebuildPendingConfig {Q : Unit → Node σ → Prop} (hb : Body W s)
    (hq : ∀ s', Local W s' → SameLog s s' → Q ⟨⟩ s') : LWp W rebuildPendingConfig Q s := by
  refine LWp.bind (LWp.of_modify (LWp.bind (LWp.of_get ?_)))
  obtain ⟨first, hfirst⟩ : ∃ first, first = max (s.commit + 1) (s.baseIndex + 1) := ⟨_, rfl⟩
  have hsettled : W.settled → first = s.commit + 1 := fun hs => by
    obtain ⟨hbase, happlied, _⟩ := hb.bounds hs
    omega
  show LWp W ((List.range' (max (s.commit + 1) (s.baseIndex + 1)) _).forM _) Q _
  rw [← hfirst]
  refine (LWp.forM_range (I := fun i s' => Body W s' ∧ SameLog s s' ∧
    (W.pend → s'.Tracks s.commit (i - 1))) ?_ ?_).mono ?_
  · rintro i hi hi' s' ⟨hb', hsame, hpend⟩
    have hlast : s'.lastIndex = s.lastIndex := by
      unfold Node.lastIndex
      rw [hsame.1, hsame.2.1]
    refine LWp.bind (lwp_ask (fun _ => entryAt_ok ?_ ?_ hb'.log_ne) fun e he =>
      LWp.ite (fun hconf => ?_) fun hplain => LWp.of_pure ⟨hb', hsame, fun hp => ?_⟩)
    · rw [hsame.2.1]
      omega
    · rw [hlast]
      unfold Node.lastIndex at hi' ⊢
      simp only [] at hi'
      omega
    · -- the entry is the last change of voters so far
      have hb'' := Body.ensurePeers (s := { s' with pendingConfig := i }) { hb' with }
        (e.oldVoters ||| e.newVoters)
      have hsame' := SameLog.ensurePeers (e.oldVoters ||| e.newVoters) { s' with pendingConfig := i }
      have hpending := ensurePeers_pendingConfig (e.oldVoters ||| e.newVoters)
        { s' with pendingConfig := i }
      refine LWp.bind (LWp.of_modify (LWp.of_modify ?_))
      generalize Node.ensurePeers _ _ = t at hb'' hsame' hpending ⊢
      refine ⟨hb'', hsame.trans hsame', fun hp => Or.inr ?_⟩
      have := hsettled (W.pend_settled hp)
      rw [show t.pendingConfig = i from hpending]
      refine ⟨by omega, by omega, ?_, fun j hj hj' => by omega⟩
      exact (Node.ConfigAt.congr hsame'.1 hsame'.2.1).mpr ⟨e, entryAt_eq_ok.mp he, hconf⟩
    · have := hsettled (W.pend_settled hp)
      obtain ⟨i, rfl⟩ : ∃ i', i = i' + 1 := ⟨i - 1, by omega⟩
      rw [Nat.add_sub_cancel] at hpend
      refine (hpend hp).extend ?_
      rintro ⟨e', he', hconf⟩
      rw [entryAt_eq_ok.mp he] at he'
      cases he'
      exact hplain hconf
  · refine ⟨{ hb with }, ⟨rfl, rfl, rfl, rfl⟩, fun hp => ?_⟩
    rw [hsettled (W.pend_settled hp), Nat.add_sub_cancel]
    exact Node.Tracks.refl rfl
  · rintro _ s' ⟨hb', hsame, hpend⟩
    refine hq s' ⟨hb', fun hp => ?_⟩ hsame
    have hs := W.pend_settled hp
    have hcommit := (hb.bounds hs).2.2
    have hlast : s'.lastIndex = s.lastIndex := by
      unfold Node.lastIndex
      rw [hsame.1, hsame.2.1]
    have hend : first + (s.lastIndex + 1 - first) - 1 = s.lastIndex := by
      rw [hsettled hs]
      omega
    rw [hsame.2.2.1, hlast, ← hend]
    exact hpend hp

omit [StableStore σ] in
theorem termAt_inLog {i t : Nat} (ht : s.termAt i = some t) : s.baseIndex ≤ i ∧ i ≤ s.lastIndex := by
  obtain ⟨e, he, _⟩ := Option.map_eq_some_iff.mp ht
  exact ⟨(entryAt?_inLog he).1, (entryAt?_inLog he).2.1⟩

omit [StableStore σ] in
/-- A conflicting suffix goes. What is known to be committed is not in conflict. -/
theorem lwp_truncateConflict {Q : Unit → Node σ → Prop} {i term : Nat} (hl : Local W s)
    (hbase : s.baseIndex ≤ i) (hlast : i ≤ s.lastIndex)
    (hkeep : W.settled → i + 1 ≤ s.commit → s.termAt (i + 1) = some term)
    (hcut : ∀ present, s.termAt (i + 1) = some present → present ≠ term →
      ∀ j e, W.keep j e → j ≤ i)
    (hq : ∀ s' : Node σ, Local W s' → s'.baseIndex = s.baseIndex → s'.commit = s.commit →
      i ≤ s'.lastIndex → Q ⟨⟩ s') : LWp W (truncateConflict (i + 1) term) Q s := by
  refine LWp.bind (LWp.of_get ?_)
  cases hterm : s.termAt (i + 1) with
  | none => exact LWp.of_pure (hq s hl rfl rfl hlast)
  | some present =>
    refine LWp.ite (fun hne => LWp.bind (LWp.of_modify ?_)) fun _ => LWp.of_pure (hq s hl rfl rfl hlast)
    obtain ⟨_, hhi⟩ := termAt_inLog hterm
    have hlen : (s.log.take (i + 1 - s.baseIndex)).length = i + 1 - s.baseIndex := by
      rw [List.length_take]
      unfold Node.lastIndex at hhi
      omega
    have hlast' : ({ s with log := s.log.take (i + 1 - s.baseIndex) } : Node σ).lastIndex = i := by
      unfold Node.lastIndex
      simp only [hlen]
      omega
    have hb : Body W { s with log := s.log.take (i + 1 - s.baseIndex) } := { hl.toBody with
      log_ne := by
        intro hnil
        rw [show s.log.take (i + 1 - s.baseIndex) = [] from hnil, List.length_nil] at hlen
        omega
      bounds := fun hs => by
        obtain ⟨h₁, h₂, h₃⟩ := hl.bounds hs
        refine ⟨h₁, h₂, ?_⟩
        rw [hlast']
        by_contra hgt
        have := hkeep hs (Nat.lt_of_not_le hgt)
        rw [hterm] at this
        exact hne (Option.some.inj this)
      entries := fun hk e he => hl.entries hk e (List.mem_of_mem_take he)
      kept := fun j e hk => by
        obtain ⟨happlied, hat⟩ := hl.kept j e hk
        have hj := hcut present hterm hne j e hk
        refine ⟨happlied, Eq.trans ?_ hat⟩
        have hlo := (entryAt?_inLog hat).1
        unfold Node.entryAt? Node.offset
        rw [hlast', if_neg (by simp only []; omega), if_neg (by omega)]
        exact List.getElem?_take_of_lt (by simp only []; omega) }
    refine lwp_rebuildPendingConfig hb fun s' hl' hsame => hq s' hl' hsame.2.1 hsame.2.2.1 ?_
    have : s'.lastIndex = i := by
      rw [← hlast']
      unfold Node.lastIndex
      rw [hsame.1, hsame.2.1]
    omega

/-- The entry of an append whose previous entry is in the log. -/
theorem lwp_storeEntry {Q : Bool → Node σ → Prop} (hl : Local W s)
    (hbase : s.baseIndex ≤ m.logIndex) (hlast : m.logIndex ≤ s.lastIndex)
    (hkeep : W.settled → m.hasEntry = true → m.logIndex + 1 ≤ s.commit →
      s.termAt (m.logIndex + 1) = some m.entry.term)
    (hcut : m.hasEntry = true → ∀ present, s.termAt (m.logIndex + 1) = some present →
      present ≠ m.entry.term → ∀ j e, W.keep j e → j ≤ m.logIndex)
    (hok : ∀ s' : Node σ, Local W s' → m.matched ≤ s'.lastIndex → Q true s')
    (hfailed : ∀ s' : Node σ, s'.Stopped → Q false s') : LWp W (storeEntry m) Q s := by
  refine LWp.ite (fun hno => ?_) fun hyes => ?_
  · refine LWp.of_pure (hok s hl ?_)
    unfold Message.matched
    rwa [if_neg (by simpa using hno)]
  · have hentry : m.hasEntry = true := by simpa using hyes
    have hmatched : m.matched = m.logIndex + 1 := if_pos hentry
    refine LWp.bind (lwp_truncateConflict hl hbase hlast (fun hs => hkeep hs hentry)
      (hcut hentry) fun s₁ hl₁ hbase₁ hcommit₁ hlast₁ => ?_)
    refine LWp.bind (LWp.of_get (LWp.ite (fun hin => LWp.of_pure (hok s₁ hl₁ ?_)) fun hend => ?_))
    · rw [hmatched]
      omega
    have hlastEq : s₁.lastIndex = m.logIndex := by omega
    refine LWp.bind (lwp_tryStore (fun store => ?_) fun s' hs' => LWp.of_pure (hfailed s' hs'))
    refine LWp.bind (LWp.of_modify ?_)
    have hlast₂ : ({ s₁ with store := store, log := s₁.log ++ [m.entry] } : Node σ).lastIndex =
        m.logIndex + 1 := by
      rw [← hlastEq]
      exact lastIndex_concat (s := { s₁ with store := store }) hl₁.log_ne
    refine LWp.ite (fun hconf => ?_) fun hplain => LWp.of_pure (hok _ ?_ ?_)
    · -- the entry is the last change of voters, and its voters become peers
      refine LWp.bind (LWp.of_modify (LWp.bind (LWp.of_modify (LWp.of_pure ?_))))
      have hb₂ := Body.concat_ensurePeers (s := { s₁ with store := store }) (e := m.entry)
        { hl₁.toBody with } (m.logIndex + 1)
      have hsame := SameLog.ensurePeers (m.entry.oldVoters ||| m.entry.newVoters)
        ({ s₁ with store := store, log := s₁.log ++ [m.entry], pendingConfig := m.logIndex + 1 } :
          Node σ)
      have hpending := ensurePeers_pendingConfig (m.entry.oldVoters ||| m.entry.newVoters)
        ({ s₁ with store := store, log := s₁.log ++ [m.entry], pendingConfig := m.logIndex + 1 } :
          Node σ)
      generalize Node.ensurePeers _ _ = t at hb₂ hsame hpending ⊢
      have hlast₃ : t.lastIndex = m.logIndex + 1 := by
        rw [← hlast₂]
        unfold Node.lastIndex
        rw [hsame.1, hsame.2.1]
      refine hok t ⟨hb₂, fun hp => Or.inr ?_⟩ (by omega)
      have hcommit := (hl₁.bounds (W.pend_settled hp)).2.2
      rw [hlast₃, show t.pendingConfig = m.logIndex + 1 from hpending,
        show t.commit = s₁.commit from hsame.2.2.1]
      refine ⟨by omega, Nat.le_refl _, ?_, fun j hj hj' => by omega⟩
      refine (Node.ConfigAt.congr hsame.1 hsame.2.1).mpr ?_
      rw [← hlastEq]
      exact (configAt_concat_last (s := { s₁ with store := store }) (e := m.entry)
        hl₁.log_ne).mpr hconf
    · refine ⟨Body.concat (s := { s₁ with store := store }) { hl₁.toBody with }
        fun _ hc => absurd hc hplain, fun hp => ?_⟩
      exact (Node.Tracks.concat (s := { s₁ with store := store }) hl₁.log_ne (hl₁.pending hp)
        (by simpa using hplain) :)
    · rw [hmatched, hlast₂]

theorem lwp_followCommit {Q : Bool → Node σ → Prop} (hl : Local W s) (hin : m.matched ≤ s.lastIndex)
    (hok : ∀ s', Local W s' → Q true s') (hfailed : ∀ s' : Node σ, s'.Stopped → Q false s') :
    LWp W (followCommit m) Q s := by
  refine LWp.bind (LWp.of_get (LWp.ite (fun _ => LWp.of_pure (hok s hl)) fun hyes => ?_))
  refine lwp_commitTo hl (fun _ => ⟨?_, ?_⟩) hok hfailed
  · simp only [Bool.and_eq_true, Bool.or_eq_true, decide_eq_true_eq,
      Bool.not_eq_true', Bool.not_eq_false] at hyes
    obtain ⟨hgt, hmatched⟩ := hyes
    unfold Message.matched
    split <;> omega
  · omega

theorem lwp_onAppend (hl : Local W s)
    (hkeep : W.settled → s.term ≤ m.term → s.termAt m.logIndex = some m.logTerm →
      m.hasEntry = true → m.logIndex + 1 ≤ s.commit → s.termAt (m.logIndex + 1) = some m.entry.term)
    (hcut : s.term ≤ m.term → s.termAt m.logIndex = some m.logTerm → m.hasEntry = true →
      ∀ present, s.termAt (m.logIndex + 1) = some present → present ≠ m.entry.term →
        ∀ j e, W.keep j e → j ≤ m.logIndex) :
    LWp W (onAppend m) (EndsSafe W) s := by
  refine LWp.bind (LWp.of_get (LWp.ite (fun _ => lwp_answer hl) fun hno => ?_))
  obtain ⟨hterm, hprev⟩ : s.term ≤ m.term ∧ s.termAt m.logIndex = some m.logTerm := by
    simp only [Node.rejectsAppend, Bool.or_eq_true, decide_eq_true_eq, not_or, Nat.not_lt, ne_eq,
      not_not] at hno
    exact hno.1
  obtain ⟨hlo, hhi⟩ := termAt_inLog hprev
  refine LWp.bind (LWp.of_modify (LWp.bind ?_))
  refine lwp_storeEntry (by exact hl.of_core rfl) hlo hhi (fun hs => hkeep hs hterm hprev)
    (hcut hterm hprev) (fun s₁ hl₁ hin => ?_) fun s' hs' => LWp.of_pure (Or.inl hs')
  exact LWp.bind (lwp_followCommit hl₁ hin (fun s₂ hl₂ => lwp_answer hl₂) fun s' hs' =>
    LWp.of_pure (Or.inl hs'))

/-! ## Acknowledgements -/

theorem lwp_advanceCommit {Q : Bool → Node σ → Prop} (hl : Local W s)
    (hok : ∀ s', Local W s' → Q true s') (hfailed : ∀ s' : Node σ, s'.Stopped → Q false s') :
    LWp W advanceCommit Q s := by
  refine LWp.bind (LWp.of_get (LWp.bind (lwp_ask
    (fun ht => hl.toBody.committable_ok (W.total_settled ht) (Nat.le_refl _)) fun found hfound => ?_)))
  cases found with
  | none => exact LWp.of_pure (hok s hl)
  | some i =>
    obtain ⟨hcommittable, hle⟩ := committable_spec hfound
    refine LWp.bind (lwp_commitTo hl (fun _ => ⟨Nat.le_of_lt hcommittable.1, hle⟩) (fun s' hl' => ?_)
      fun s' hs' => LWp.of_pure (hfailed s' hs'))
    refine LWp.bind (LWp.of_get (LWp.ite (fun _ => ?_) fun _ => LWp.of_pure (hok s' hl')))
    exact LWp.bind (lwp_broadcastAppend hl'.toBody fun s'' hs'' =>
      LWp.of_pure (hok s'' (hl'.of_core hs''.core)))

omit [StableStore σ] in
/-- The acknowledgement has the context of the active read barrier. -/
def Node.confirms (s : Node σ) (m : Message) : Bool :=
  s.state = .leader && m.term = s.term && !m.reject && m.context ≠ 0 && m.context = s.readContext

omit [StableStore σ] in
/-- A confirmation changes what the node notes about its read barrier, and nothing else. -/
theorem lwp_confirmRead {Q : Unit → Node σ → Prop} (hlog : W.total → s.log ≠ [])
    (hfrom : W.total → s.confirms m = true → 0 < m.fromID ∧ m.fromID ≤ 64)
    (hq : ∀ acks index ready, Q ⟨⟩ { s with
      readAckMask := acks, readIndex := index, readReady := ready }) :
    LWp W (confirmRead m) Q s := by
  have hsame : Q ⟨⟩ s := hq s.readAckMask s.readIndex s.readReady
  refine LWp.bind (LWp.of_get (LWp.ite (fun hyes => ?_) fun _ => LWp.of_pure hsame))
  refine LWp.bind (lwp_ask (fun ht => isVoter_ok (hlog ht) (hfrom ht hyes)) fun _ _ =>
    LWp.ite (fun _ => ?_) fun _ => LWp.of_pure hsame)
  refine LWp.bind (lwp_ask (fun ht => ⟨_, nodeBit_of_range (hfrom ht hyes).1 (hfrom ht hyes).2⟩)
    fun bit _ => LWp.bind (LWp.of_modify ?_))
  exact LWp.bind (lwp_ask (fun ht => quorumMask_ok (hlog ht) _) fun _ _ =>
    LWp.ite (fun _ => LWp.of_modify (hq _ _ _)) fun _ => LWp.of_pure (hq _ _ _))

theorem lwp_onAppendResponse (hl : Local W s)
    (hfrom : W.total → s.confirms m = true → 0 < m.fromID ∧ m.fromID ≤ 64) :
    LWp W (onAppendResponse m) (EndsSafe W) s := by
  refine LWp.bind (lwp_confirmRead (fun _ => hl.log_ne) hfrom fun acks index ready => ?_)
  have hl₁ : Local W { s with readAckMask := acks, readIndex := index, readReady := ready } :=
    hl.of_core rfl
  refine LWp.bind (LWp.of_get (LWp.ite (fun _ => LWp.of_pure (Or.inr hl₁)) fun _ =>
    LWp.ite (fun _ => LWp.bind (LWp.of_modify ?_)) fun _ => LWp.bind (LWp.of_modify ?_)))
  · split
    · exact lwp_appendToContext hl₁.log_ne fun s' hs' => Or.inr (hl₁.of_core hs'.core)
    · exact lwp_appendToContext hl₁.log_ne fun s' hs' => Or.inr (hl₁.of_core hs'.core)
  · refine LWp.bind (lwp_advanceCommit (by exact hl₁.of_core rfl) (fun s₂ hl₂ => ?_) fun s' hs' =>
      LWp.of_pure (Or.inl hs'))
    refine LWp.bind (LWp.of_get (LWp.ite (fun _ => LWp.of_pure (Or.inr hl₂)) fun _ =>
      LWp.ite (fun _ => ?_) fun _ => LWp.of_pure (Or.inr hl₂)))
    exact lwp_appendToContext hl₂.log_ne fun s' hs' => Or.inr (hl₂.of_core hs'.core)

/-! ## Snapshots -/

theorem lwp_saveAndCompact {Q : Bool → Node σ → Prop} {snapshot : Snapshot}
    (hok : ∀ store, Q true { s with store := store })
    (hfailed : ∀ s' : Node σ, s'.Stopped → Q false s') :
    LWp W (saveAndCompact snapshot) Q s := by
  unfold saveAndCompact
  split
  · exact LWp.bind (lwp_failStorage fun s' hs' => LWp.of_pure (hfailed s' hs'))
  · refine LWp.bind (lwp_tryStore (fun store => ?_) fun s' hs' => LWp.of_pure (hfailed s' hs'))
    exact lwp_tryStore hok hfailed

omit [StableStore σ] in
/-- The log from an index on. -/
theorem Local.drop {i : Nat} (hl : Local W s) (hlo : s.baseIndex ≤ i) (hhi : i ≤ s.lastIndex)
    {t : Node σ} (hlog : t.log = s.log.drop (i - s.baseIndex)) (hbase : t.baseIndex = i) :
    t.log ≠ [] ∧ t.lastIndex = s.lastIndex ∧ (∀ j, i ≤ j → t.entryAt? j = s.entryAt? j) ∧
      (∀ j, i ≤ j → (t.ConfigAt j ↔ s.ConfigAt j)) := by
  have hpos := List.length_pos_iff.mpr hl.log_ne
  have hlen : t.log.length = s.log.length - (i - s.baseIndex) := by rw [hlog, List.length_drop]
  unfold Node.lastIndex at hhi
  have hlast : t.lastIndex = s.lastIndex := by
    unfold Node.lastIndex
    rw [hlen, hbase]
    omega
  have hsame : ∀ j, i ≤ j → t.entryAt? j = s.entryAt? j := fun j hj => by
    unfold Node.entryAt? Node.offset
    rw [hlast, hbase, hlog]
    by_cases hout : j > s.lastIndex
    · rw [if_pos (Or.inr hout), if_pos (Or.inr hout)]
      rfl
    · rw [if_neg (by omega), if_neg (by omega)]
      show (s.log.drop (i - s.baseIndex))[j - i]? = s.log[j - s.baseIndex]?
      rw [List.getElem?_drop]
      congr 1
      omega
  refine ⟨fun hnil => ?_, hlast, hsame, fun j hj => ?_⟩
  · rw [hnil, List.length_nil] at hlen
    omega
  · unfold Node.ConfigAt
    rw [hsame j hj]

theorem lwp_compact {i : Nat} {state : List UInt8} (hl : Local W s) :
    LWp W (compact i state) (EndsSafe W) s := by
  refine LWp.bind (LWp.of_get (LWp.ite (fun _ => LWp.of_pure (Or.inr hl)) fun hyes => ?_))
  cases hterm : s.termAt i with
  | none => exact LWp.of_pure (Or.inr hl)
  | some term =>
    refine LWp.bind (lwp_saveAndCompact (fun store => ?_) fun s' hs' => LWp.of_pure (Or.inl hs'))
    refine LWp.bind (LWp.of_modify (LWp.of_pure ?_))
    obtain ⟨hlo, hhi⟩ := termAt_inLog hterm
    simp only [Bool.or_eq_true, decide_eq_true_eq, not_or, Nat.not_le, Nat.not_lt] at hyes
    obtain ⟨hne, hlast, hat, hconf⟩ := hl.drop hlo hhi (t := { s with
      store := store, log := s.log.drop (i - s.baseIndex), baseIndex := i, baseTerm := term
      snapshot := _ }) rfl rfl
    refine Or.inr { toBody := { hl.toBody with
                      log_ne := hne, bounds := fun hset => ?_, entries := ?_, kept := ?_ }
                    pending := fun hp => ?_ }
    · obtain ⟨_, happlied, hcommit⟩ := hl.bounds hset
      exact ⟨hyes.2, happlied, Nat.le_trans hcommit (Nat.le_of_eq hlast.symm)⟩
    · exact fun hk e he => hl.entries hk e (List.mem_of_mem_drop he)
    · intro j e hk
      obtain ⟨happlied, hj⟩ := hl.kept j e hk
      exact ⟨happlied, (hat j (by omega)).trans hj⟩
    · have hset := hl.bounds (W.pend_settled hp)
      rw [hlast]
      refine (hl.pending hp).of_same rfl fun j hj _ => hconf j ?_
      omega

/-- What an accepted snapshot has to keep to. -/
structure SnapshotLocal (W : Watch) (s : Node σ) (m : Message) : Prop where
  held : W.settled → m.snapshotIndex < s.commit → s.termAt m.snapshotIndex = some m.snapshotTerm
  pending : W.pend → s.pendingConfig = 0 ∨
    (s.termAt m.snapshotIndex = some m.snapshotTerm ∧ m.snapshotIndex < s.pendingConfig)
  known : W.known → s.Knows (m.snapshotOld ||| m.snapshotNew)
  kept : ∀ i e, W.keep i e →
    m.snapshotIndex < i ∧ s.termAt m.snapshotIndex = some m.snapshotTerm

omit [StableStore σ] in
/-- The node behind an accepted snapshot. -/
theorem Local.install (hl : Local W s) (hsafe : SnapshotLocal W s m)
    (hlt : s.baseIndex < m.snapshotIndex) : Local W { s with
      log := s.logBehind m.asSnapshot
      baseIndex := m.snapshotIndex, baseTerm := m.snapshotTerm, snapshot := m.asSnapshot
      votersOld := m.snapshotOld, votersNew := m.snapshotNew
      commit := max s.commit m.snapshotIndex
      applied := max s.applied m.snapshotIndex } := by
  by_cases hheld : s.termAt m.snapshotIndex = some m.snapshotTerm
  · -- the suffix stays
    rw [show s.logBehind m.asSnapshot = s.log.drop (m.snapshotIndex - s.baseIndex) from if_pos hheld]
    obtain ⟨_, hhi⟩ := termAt_inLog hheld
    obtain ⟨hne, hlast, hat, hconf⟩ := hl.drop (Nat.le_of_lt hlt) hhi (t := { s with
      log := s.log.drop (m.snapshotIndex - s.baseIndex)
      baseIndex := m.snapshotIndex, baseTerm := m.snapshotTerm, snapshot := m.asSnapshot
      votersOld := m.snapshotOld, votersNew := m.snapshotNew
      commit := max s.commit m.snapshotIndex
      applied := max s.applied m.snapshotIndex }) rfl rfl
    refine { toBody := { hl.toBody with
               log_ne := hne, bounds := fun hs => ?_, voters := hsafe.known
               entries := fun hk e he => hl.entries hk e (List.mem_of_mem_drop he)
               kept := fun j e hk => ?_ }
             pending := fun hp => ?_ }
    · obtain ⟨_, happlied, hcommit⟩ := hl.bounds hs
      rw [hlast]
      exact ⟨Nat.le_max_right _ _, by simp only []; omega, by simp only []; omega⟩
    · obtain ⟨happlied, hj⟩ := hl.kept j e hk
      have hlt' := (hsafe.kept j e hk).1
      exact ⟨Nat.max_lt.mpr ⟨happlied, hlt'⟩, (hat j (Nat.le_of_lt hlt')).trans hj⟩
    · rw [hlast]
      rcases hl.pending hp with ⟨hzero, hno⟩ | ⟨hlo, hin, hat, hno⟩
      · refine Or.inl ⟨hzero, fun j hj hj' hc => ?_⟩
        simp only [] at hj
        exact hno j (by omega) hj' ((hconf j (by omega)).mp hc)
      · have hgt : m.snapshotIndex < s.pendingConfig := by
          rcases hsafe.pending hp with hzero | ⟨_, hgt⟩
          · omega
          · exact hgt
        refine Or.inr ⟨?_, hin, (hconf _ (Nat.le_of_lt hgt)).mpr hat, fun j hj hj' hc => ?_⟩
        · simp only []
          omega
        · exact hno j hj hj' ((hconf j (by simp only [] at hj; omega)).mp hc)
  · -- the log goes
    rw [show s.logBehind m.asSnapshot = [{ term := m.snapshotTerm }] from if_neg hheld]
    refine { toBody := { hl.toBody with
               log_ne := List.cons_ne_nil _ _, bounds := fun hs => ?_, voters := hsafe.known
               entries := fun _ e he hc => ?_
               kept := fun j e hk => absurd (hsafe.kept j e hk).2 hheld }
             pending := fun hp => ?_ }
    · obtain ⟨_, happlied, _⟩ := hl.bounds hs
      have hle : s.commit ≤ m.snapshotIndex := Nat.le_of_not_lt fun h => hheld (hsafe.held hs h)
      refine ⟨Nat.le_max_right _ _, by simp only []; omega, ?_⟩
      show max s.commit m.snapshotIndex ≤ m.snapshotIndex + 1 - 1
      omega
    · rw [List.mem_singleton.mp he] at hc
      cases hc
    · have hzero := (hsafe.pending hp).resolve_right fun h => hheld h.1
      refine Or.inl ⟨hzero, fun j hj hj' => ?_⟩
      replace hj : max s.commit m.snapshotIndex < j := hj
      replace hj' : j ≤ m.snapshotIndex + 1 - 1 := hj'
      omega

theorem lwp_onInstallSnapshot (hl : Local W s)
    (hsafe : s.term ≤ m.term → m.snapshotOld ≠ 0 → s.baseIndex < m.snapshotIndex →
      SnapshotLocal W s m) : LWp W (onInstallSnapshot m) (EndsSafe W) s := by
  refine LWp.bind (LWp.of_get (LWp.ite (fun _ => lwp_answer hl) fun hno => ?_))
  simp only [Node.rejectsSnapshot, Bool.or_eq_true, decide_eq_true_eq, not_or, Nat.not_lt] at hno
  have hend : ∀ s', Local W s' → LWp W (do
      modify fun n : Node σ => { n with state := .follower, leader := m.fromID, elapsed := 0 }
      let n ← get
      send { type := .installSnapshotResponse, fromID := n.id, toID := m.fromID, term := n.term,
             matchIndex := n.baseIndex }) (EndsSafe W) s' := fun s' hl' =>
    LWp.bind (LWp.of_modify (LWp.bind (LWp.of_get (lwp_answer (by exact hl'.of_core rfl)))))
  refine LWp.bind (LWp.bind (LWp.of_get (LWp.ite (fun _ => LWp.of_pure (hend s hl)) fun hgt => ?_)))
  have hlt : s.baseIndex < m.snapshotIndex := by omega
  refine LWp.bind (lwp_saveAndCompact (fun store => ?_) fun s' hs' =>
    LWp.of_pure (LWp.of_pure (Or.inl hs')))
  refine LWp.bind (LWp.of_modify (LWp.of_pure (hend _ ?_)))
  obtain ⟨held, pending, known, kept⟩ := hsafe hno.1.1.1 hno.1.2 hlt
  exact Local.install (s := { s with store := store }) (hl.of_core rfl)
    ⟨held, pending, known, kept⟩ hlt

omit [StableStore σ] in
/-- The leader notes what the peer has installed, if that is new, and may have more for it. -/
theorem lwp_onInstallSnapshotResponse {Q : Unit → Node σ → Prop} (hlog : W.total → s.log ≠ [])
    (hfrom : W.total → s.state = .leader → m.term = s.term → m.reject = false →
      0 < m.fromID ∧ m.fromID ≤ 64) (hsame : Q ⟨⟩ s)
    (hends : s.state = .leader → m.term = s.term → m.reject = false → ∀ t, (t = s ∨
      s.matchIndex m.fromID < m.matchIndex ∧ t = { s with
        matchIndex := update s.matchIndex m.fromID m.matchIndex
        next := update s.next m.fromID (m.matchIndex + 1) }) →
      Q ⟨⟩ t ∧ LWp W (appendTo m.fromID) Q t) : LWp W (onInstallSnapshotResponse m) Q s := by
  refine LWp.bind (LWp.of_get (LWp.ite (fun _ => LWp.of_pure hsame) fun hyes => ?_))
  simp only [Bool.or_eq_true, decide_eq_true_eq, not_or, ne_eq, not_not, Bool.not_eq_true] at hyes
  obtain ⟨⟨hleads, hown⟩, hacc⟩ := hyes
  refine LWp.bind (lwp_ask (fun ht => isVoter_ok (hlog ht) (hfrom ht hleads hown hacc)) fun _ _ =>
    LWp.ite (fun _ => LWp.of_pure hsame) fun _ => LWp.bind (LWp.of_modify (LWp.bind (LWp.of_get ?_))))
  split
  · rename_i hmore
    obtain ⟨hq, happend⟩ := hends hleads hown hacc _ (Or.inr ⟨hmore, rfl⟩)
    exact LWp.ite (fun _ => happend) fun _ => LWp.of_pure hq
  · exact LWp.ite (fun _ => (hends hleads hown hacc s (Or.inl rfl)).2) fun _ => LWp.of_pure hsame

/-! ## Messages -/

omit [StableStore σ] in
theorem SnapshotLocal.of_core (h : SnapshotLocal W s m) (hcore : s'.core = s.core) :
    SnapshotLocal W s' m := by
  cases s
  cases s'
  simp only [Node.core, Prod.mk.injEq] at hcore
  obtain ⟨rfl, rfl, rfl, rfl, rfl, rfl, rfl, rfl, rfl, rfl⟩ := hcore
  exact ⟨h.held, h.pending, h.known, h.kept⟩

/-- The handler of the message asks for the bit of its sender. -/
def Node.asksSender (s : Node σ) (m : Message) : Bool :=
  match m.type with
  | .preVote | .requestVote => true
  | .preVoteResponse => s.state ≠ .leader
  | .requestVoteResponse => m.term ≤ s.term && s.state = .candidate
  | .appendResponse => s.confirms m
  | .installSnapshotResponse => s.state = .leader && m.term = s.term && !m.reject
  | _ => false

/-- What a message has to keep to. -/
structure StepLocal (W : Watch) (s : Node σ) (m : Message) : Prop where
  append : W.settled → m.type = .append → s.term ≤ m.term → s.termAt m.logIndex = some m.logTerm →
    m.hasEntry = true → m.logIndex + 1 ≤ s.commit → s.termAt (m.logIndex + 1) = some m.entry.term
  cut : m.type = .append → s.term ≤ m.term → s.termAt m.logIndex = some m.logTerm →
    m.hasEntry = true → ∀ present, s.termAt (m.logIndex + 1) = some present →
      present ≠ m.entry.term → ∀ i e, W.keep i e → i ≤ m.logIndex
  snapshot : m.type = .installSnapshot → s.term ≤ m.term → m.snapshotOld ≠ 0 →
    s.baseIndex < m.snapshotIndex → SnapshotLocal W s m
  sender : W.total → s.asksSender m = true → 0 < m.fromID ∧ m.fromID ≤ 64

/-- The node that handles a message has adopted its term, or is the one that got it. -/
def Adopts (s : Node σ) (m : Message) (s' : Node σ) : Prop :=
  (s' = s ∧ (m.type = .preVote ∨ m.type = .preVoteResponse ∨ m.term ≤ s.term)) ∨
    (m.type ≠ .preVoteResponse ∧ s.term < m.term ∧ s'.state = .follower ∧ s'.term = m.term)

theorem adoptTerm_eq (h : m.type = .preVote ∨ m.type = .preVoteResponse ∨ m.term ≤ s.term) :
    adoptTerm m s = .ok true s := by
  show (if m.type = .preVote || m.type = .preVoteResponse || m.term ≤ s.term then pure true else _ :
    NodeM σ Bool) s = _
  rw [if_pos (by simpa [or_assoc] using h)]
  rfl

theorem lwp_adoptTerm {Q : Bool → Node σ → Prop}
    (hok : ∀ s' : Node σ, s'.core = s.core → Adopts s m s' → Q true s')
    (hfailed : ∀ s' : Node σ, s'.Stopped → Q false s') : LWp W (adoptTerm m) Q s := by
  refine LWp.bind (LWp.of_get (LWp.ite (fun hno => LWp.of_pure (hok s rfl (Or.inl ⟨rfl, ?_⟩)))
    fun hyes => ?_))
  · simpa [or_assoc] using hno
  · simp only [Bool.or_eq_true, decide_eq_true_eq, not_or, Nat.not_le] at hyes
    refine LWp.bind (lwp_tryStore (fun store => ?_) fun s' hs' => LWp.of_pure (hfailed s' hs'))
    exact LWp.bind (LWp.of_modify (LWp.of_pure (hok _ rfl (Or.inr ⟨hyes.1.2, hyes.2, rfl, rfl⟩))))

theorem lwp_step (hl : Local W s) (hsafe : s.faulted = false → StepLocal W s m) :
    LWp W (step m) (EndsSafe W) s := by
  refine LWp.bind (LWp.of_get (LWp.ite (fun _ => LWp.of_pure (Or.inr hl)) fun hrun => ?_))
  obtain ⟨happend, hcut, hsnapshot, hsender⟩ := hsafe (by simpa using hrun)
  refine LWp.bind (lwp_adoptTerm (fun s₁ hcore hadopts => ?_) fun s' hs' => LWp.of_pure (Or.inl hs'))
  have hl₁ := hl.of_core hcore
  have hlog : W.total → s₁.log ≠ [] := fun _ => hl₁.log_ne
  -- a message of a later term finds a follower
  have hterm : s₁.term ≤ m.term → s.term ≤ m.term := by
    rcases hadopts with ⟨rfl, _⟩ | ⟨_, hlt, _⟩
    · exact id
    · exact fun _ => Nat.le_of_lt hlt
  have hsame : ∀ state, state ≠ .follower → s₁.state = state →
      s₁ = s ∧ (m.type = .preVote ∨ m.type = .preVoteResponse ∨ m.term ≤ s.term) := by
    rintro state hne hstate
    exact hadopts.resolve_right fun h => hne (hstate.symm.trans h.2.2.1)
  cases htype : m.type with
  | preVote =>
    exact lwp_onPreVote hlog (fun ht => hsender ht (by simp [Node.asksSender, htype])) fun _ =>
      lwp_answer hl₁
  | preVoteResponse =>
    obtain ⟨rfl, _⟩ := hadopts.resolve_right fun h => h.1 htype
    exact lwp_onPreVoteResponse hlog
      (fun ht hstate => hsender ht (by simp [Node.asksSender, htype, hstate]))
      (fun _ => Or.inr (hl₁.of_core rfl)) fun _ _ => lwp_startElection (hl₁.of_core rfl)
  | requestVote =>
    refine lwp_onVote hlog (fun ht => hsender ht (by simp [Node.asksSender, htype])) (lwp_answer hl₁) ?_
    refine LWp.bind (lwp_tryStore (fun store => ?_) fun s' hs' => LWp.of_pure (Or.inl hs'))
    exact LWp.bind (LWp.of_modify (lwp_answer (by exact hl₁.of_core rfl)))
  | requestVoteResponse =>
    refine lwp_onVoteResponse hlog (fun ht hstate => ?_) (fun _ => Or.inr (hl₁.of_core rfl))
      fun _ => lwp_becomeLeader (hl₁.of_core rfl)
    obtain ⟨rfl, hle⟩ := hsame .candidate (by simp) hstate
    have hle' : m.term ≤ s₁.term := by simpa [htype] using hle
    exact hsender ht (by simp [Node.asksSender, htype, hstate, hle'])
  | append =>
    have hcommit : s₁.commit = s.commit := congrArg (·.2.2.2.2.1) hcore
    have hat : ∀ i, s₁.termAt i = s.termAt i := fun i => by
      have hlog : s₁.log = s.log := congrArg (·.2.2.1) hcore
      have hbase : s₁.baseIndex = s.baseIndex := congrArg (·.2.2.2.1) hcore
      unfold Node.termAt Node.entryAt? Node.offset Node.lastIndex
      rw [hlog, hbase]
    refine lwp_onAppend hl₁ (fun hs ht hprev hentry hle => ?_) fun ht hprev hentry present hpresent => ?_
    · rw [hat] at hprev ⊢
      exact happend hs htype (hterm ht) hprev hentry (by omega)
    · rw [hat] at hprev hpresent
      exact hcut htype (hterm ht) hprev hentry present hpresent
  | appendResponse =>
    refine lwp_onAppendResponse hl₁ fun ht hconf => ?_
    have hstate : s₁.state = .leader := by
      simp only [Node.confirms, Bool.and_eq_true, decide_eq_true_eq] at hconf
      exact hconf.1.1.1.1
    obtain ⟨rfl, _⟩ := hsame .leader (by simp) hstate
    exact hsender ht (by simp [Node.asksSender, htype, hconf])
  | installSnapshot =>
    refine lwp_onInstallSnapshot hl₁ fun ht hold hlt => ?_
    have hbase : s₁.baseIndex = s.baseIndex := congrArg (·.2.2.2.1) hcore
    exact (hsnapshot htype (hterm ht) hold (by omega)).of_core hcore
  | installSnapshotResponse =>
    refine lwp_onInstallSnapshotResponse hlog (fun ht hstate hmterm hreject => ?_) (Or.inr hl₁)
      fun _ _ _ t ht => ?_
    · obtain ⟨rfl, _⟩ := hsame .leader (by simp) hstate
      exact hsender ht (by simp [Node.asksSender, htype, hstate, hmterm, hreject])
    · have hl' : Local W t := by
        rcases ht with rfl | ⟨_, rfl⟩
        · exact hl₁
        · exact hl₁.of_core rfl
      exact ⟨Or.inr hl', lwp_appendToContext hl'.log_ne fun s' hs' => Or.inr (hl'.of_core hs'.core)⟩
  | timeoutNow =>
    exact LWp.bind (LWp.of_get (LWp.ite (fun _ => lwp_startElection hl₁) fun _ =>
      LWp.of_pure (Or.inr hl₁)))
  | other c => exact LWp.of_pure (Or.inr hl₁)

/-! ## Proposals -/

omit [StableStore σ] in
theorem lwp_accept {s : Node σ} (hl : Local W s) : LWp W (do
    broadcastAppend
    return true) (EndsSafe W) s :=
  LWp.bind (lwp_broadcastAppend hl.toBody fun _ hs' => LWp.of_pure (Or.inr (hl.of_core hs'.core)))

theorem lwp_proposeEntry {e : Entry} (hl : Local W s) (hplain : e.isConfig = false) : LWp W (do
    if !(← appendLocal e) then return false
    broadcastAppend
    return true) (EndsSafe W) s := by
  refine LWp.bind (lwp_appendLocal hl (fun _ hc => ?_) (fun _ hc => ?_) (fun s' _ hl' _ => ?_)
    fun s' hs' => LWp.of_pure (Or.inl hs'))
  · rw [hplain] at hc
    cases hc
  · rw [hplain] at hc
    cases hc
  · exact lwp_accept (hl' hplain)

theorem lwp_proposeConfig {e : Entry} (hl : Local W s) (hconf : e.isConfig = true)
    (hknown : W.known → s.Knows (e.oldVoters ||| e.newVoters))
    (halone : W.pend → s.commitsAlone e = false) : LWp W (do
    if !(← appendLocal e) then return false
    modify fun n => { n with pendingConfig := n.lastIndex }
    broadcastAppend
    return true) (EndsSafe W) s := by
  refine LWp.bind (lwp_appendLocal hl (fun hk _ => hknown hk) (fun hp _ => halone hp)
    (fun s' hb' _ hpend => ?_) fun s' hs' => LWp.of_pure (Or.inl hs'))
  refine LWp.bind (LWp.of_modify (lwp_accept { toBody := { hb' with }, pending := fun hp => ?_ }))
  obtain ⟨hlt, hat⟩ := hpend hp hconf
  refine Or.inr ⟨hlt, Nat.le_refl _, hat, fun i hi hi' => ?_⟩
  exact absurd hi (Nat.not_lt.mpr hi')

/-- The entry of `proposeJoint`. -/
abbrev Node.jointEntry (s : Node σ) (mask : Word) : Entry :=
  { term := s.term, kind := .jointConfig, oldVoters := s.votersOld, newVoters := mask }

/-- The entry of `proposeFinal`. -/
abbrev Node.finalEntry (s : Node σ) : Entry :=
  { term := s.term, kind := .finalConfig, oldVoters := s.votersNew }

/-- What an operation has to keep to. -/
def OpLocal (W : Watch) (s : Node σ) : Op → Prop
  | .step m => s.faulted = false → StepLocal W s m
  | .proposeJoint ids => (W.total → ∀ id ∈ ids, 0 < id ∧ id ≤ 64) ∧
      (W.pend → s.state = .leader → s.votersNew = 0 → s.pendingConfig = 0 → ∀ mask,
        voterMask ids = .ok (some mask) → s.commitsAlone (s.jointEntry mask) = false)
  | .proposeFinal => W.pend → s.state = .leader → s.votersNew ≠ 0 → s.pendingConfig = 0 →
      s.commitsAlone s.finalEntry = false
  | .transferLeadership target => W.total → 0 < target ∧ target ≤ 64
  | .applyEntries => ∀ i e, W.keep i e → s.commit < i
  | _ => True

omit [StableStore σ] in
theorem stepLocal_free (s : Node σ) (m : Message) : StepLocal {} s m where
  append := False.elim
  cut _ _ _ _ _ _ _ _ _ := False.elim
  snapshot _ _ _ _ := ⟨False.elim, False.elim, False.elim, fun _ _ => False.elim⟩
  sender := False.elim

omit [StableStore σ] in
/-- Where nothing is watched, every operation will do. -/
theorem opLocal_free (s : Node σ) (op : Op) : OpLocal {} s op := by
  cases op with
  | step m => exact fun _ => stepLocal_free s m
  | proposeJoint ids => exact ⟨False.elim, False.elim⟩
  | proposeFinal => exact False.elim
  | transferLeadership target => exact False.elim
  | applyEntries => exact fun _ _ => False.elim
  | _ => trivial

omit [StableStore σ] in
theorem voterMask_ok {ids : List Nat} (hids : ∀ id ∈ ids, 0 < id ∧ id ≤ 64) :
    ∃ mask, voterMask ids = .ok mask := by
  have hloop : ∀ mask, ∃ r, voterMaskLoop ids mask = .ok r := by
    induction ids with
    | nil => exact fun mask => ⟨some mask, rfl⟩
    | cons id ids ih =>
      intro mask
      obtain ⟨h0, h64⟩ := hids id List.mem_cons_self
      refine bind_ok (nodeBit_of_range h0 h64) ?_
      split
      · exact ⟨none, rfl⟩
      · exact ih (fun j hj => hids j (List.mem_cons_of_mem id hj)) _
  unfold voterMask
  split
  · exact ⟨none, rfl⟩
  · exact hloop 0

theorem lwp_proposeJoint {ids : List Nat} (hl : Local W s) (hop : OpLocal W s (.proposeJoint ids)) :
    LWp W (proposeJoint ids) (EndsSafe W) s := by
  refine LWp.bind (lwp_ask (fun ht => voterMask_ok (hop.1 ht)) fun mask hmask => ?_)
  cases mask with
  | none => exact LWp.of_pure (Or.inr hl)
  | some mask =>
    refine LWp.bind (LWp.of_get (LWp.ite (fun _ => LWp.of_pure (Or.inr hl)) fun hmay => ?_))
    simp only [Bool.or_eq_true, decide_eq_true_eq, not_or, ne_eq, not_not] at hmay
    refine LWp.bind (LWp.of_modify ?_)
    obtain ⟨hkept, hknows⟩ := ensurePeers_knows mask s
    have hb := hl.toBody.ensurePeers mask
    have hsame := SameLog.ensurePeers mask s
    have hpending := ensurePeers_pendingConfig mask s
    have hid : (s.ensurePeers mask).id = s.id := ensurePeers_frame Node.id (fun _ _ _ _ => rfl) mask s
    have halone : (s.ensurePeers mask).commitsAlone (s.jointEntry mask) =
        s.commitsAlone (s.jointEntry mask) :=
      ensurePeers_frame (fun n => n.commitsAlone (s.jointEntry mask)) (fun _ _ _ _ => rfl) mask s
    generalize s.ensurePeers mask = t at hkept hknows hb hsame hpending hid halone ⊢
    have hlast : t.lastIndex = s.lastIndex := by
      unfold Node.lastIndex
      rw [hsame.1, hsame.2.1]
    refine lwp_proposeConfig ⟨hb, fun hp => ?_⟩ rfl (fun hk => ?_) fun hp => ?_
    · rw [hlast, hsame.2.2.1]
      exact (hl.pending hp).of_same hpending fun _ _ _ => Node.ConfigAt.congr hsame.1 hsame.2.1
    · exact ((hl.voters hk).of_or.1.mono hid hkept).or hknows
    · rw [halone]
      exact hop.2 hp hmay.1.1.1 hmay.1.2 hmay.2 mask hmask

theorem lwp_proposeFinal (hl : Local W s) (hop : OpLocal W s .proposeFinal) :
    LWp W proposeFinal (EndsSafe W) s := by
  refine LWp.bind (LWp.of_get (LWp.ite (fun _ => LWp.of_pure (Or.inr hl)) fun hmay => ?_))
  simp only [Bool.or_eq_true, decide_eq_true_eq, not_or, ne_eq, not_not] at hmay
  exact lwp_proposeConfig hl rfl (fun hk => (hl.voters hk).of_or.2.or Node.Knows.zero)
    fun hp => hop hp hmay.1.1.1 hmay.1.2 hmay.2

/-! ## The other operations -/

omit [StableStore σ] in
theorem lwp_transferLeadership {target : Nat} {Q : Bool → Node σ → Prop}
    (hlog : W.total → s.log ≠ []) (hop : W.total → 0 < target ∧ target ≤ 64) (hrefused : Q false s)
    (hbehind : LWp W (appendTo target) (fun _ => Q false) s) (hsend : LWp W (send {
      type := .timeoutNow, fromID := s.id, toID := target, term := s.term }) (fun _ => Q true) s) :
    LWp W (transferLeadership target) Q s := by
  refine LWp.bind (LWp.of_get (LWp.ite (fun _ => LWp.of_pure hrefused) fun _ => ?_))
  refine LWp.bind (lwp_ask (fun ht => isVoter_ok (hlog ht) (hop ht)) fun _ _ =>
    LWp.ite (fun _ => LWp.of_pure hrefused) fun _ => LWp.ite (fun _ => ?_) fun _ => ?_)
  · exact LWp.bind (hbehind.mono fun _ _ h => LWp.of_pure h)
  · exact LWp.bind (hsend.mono fun _ _ h => LWp.of_pure h)

omit [StableStore σ] in
theorem lwp_startReadIndex {context : Word} {Q : Bool → Node σ → Prop} (hl : W.total → Local W s)
    (hrefused : Q false s) (haccepted : s.state = .leader → ∀ own index ready,
      LWp W (s.peers.forM fun p => appendToContext p context) (fun _ => Q true) { s with
        readContext := context, readAckMask := own, readIndex := index, readReady := ready }) :
    LWp W (startReadIndex context) Q s := by
  refine LWp.bind (lwp_ask (fun ht => ?_) fun may hmay =>
    LWp.ite (fun _ => LWp.of_pure hrefused) fun h => ?_)
  · obtain ⟨hbase, happlied, hcommit⟩ := (hl ht).bounds (W.total_settled ht)
    have hlog := (hl ht).log_ne
    unfold Node.mayRead
    split
    · exact ⟨false, rfl⟩
    · obtain ⟨t, hterm⟩ := termAtMust_ok (Nat.le_trans hbase happlied) hcommit hlog
      refine bind_ok hterm ?_
      split
      · exact ⟨true, rfl⟩
      · exact bind_ok (nodeBit_of_range (hl ht).own.1 (hl ht).own.2) (quorumMask_ok hlog _)
  · have hleader : s.state = .leader := by
      by_contra hno
      unfold Node.mayRead at hmay
      rw [if_pos (by simp [hno])] at hmay
      cases hmay
      exact h rfl
    refine LWp.bind (lwp_ask (fun ht => ⟨_, nodeBit_of_range (hl ht).own.1 (hl ht).own.2⟩)
      fun own _ => LWp.bind (LWp.of_modify (LWp.bind ?_)))
    refine lwp_ask (fun ht => quorumMask_ok (hl ht).log_ne _) fun ready _ =>
      LWp.bind (LWp.of_modify (LWp.bind (LWp.of_get (LWp.bind ?_))))
    exact (haccepted hleader own _ ready).mono fun _ _ h => LWp.of_pure h

omit [StableStore σ] in
theorem lwp_applyEntries (hl : Local W s) (hkeep : ∀ i e, W.keep i e → s.commit < i) :
    LWp W applyEntries (EndsSafe W) s := by
  refine LWp.bind (LWp.of_get ?_)
  unfold indexes
  refine (LWp.foldlM_range (I := fun i s' => ∃ applied, s' = { s with applied := applied } ∧
    (W.settled → s.baseIndex ≤ applied ∧ applied ≤ s.commit) ∧
    (applied = s.applied ∨ applied ≤ s.commit) ∧ applied < i) ?_ ?_).mono ?_
  · rintro i hi hi' dst s' ⟨applied, rfl, hle, _, hlt⟩
    refine LWp.bind (LWp.of_modify (LWp.bind (lwp_ask (fun ht => ?_) fun _ _ =>
      LWp.of_pure ⟨i, rfl, fun hs => ?_, Or.inr (by omega), Nat.lt_succ_self i⟩)))
    · obtain ⟨hbase, happlied, hcommit⟩ := hl.bounds (W.total_settled ht)
      refine entryAt_ok (n := { s with applied := i }) ?_ ?_ hl.log_ne
      · show s.baseIndex ≤ i
        omega
      · show i ≤ s.lastIndex
        omega
    · have := hl.bounds hs
      omega
  · exact ⟨s.applied, rfl, fun hs => ⟨(hl.bounds hs).1, (hl.bounds hs).2.1⟩, Or.inl rfl,
      Nat.lt_succ_self _⟩
  · rintro _ s' ⟨applied, rfl, hle, hsame, _⟩
    refine Or.inr { toBody := { hl.toBody with bounds := fun hs => ?_, kept := fun i e hk => ?_ }
                    pending := hl.pending }
    · exact ⟨(hle hs).1, (hle hs).2, (hl.bounds hs).2.2⟩
    · obtain ⟨happlied, hat⟩ := hl.kept i e hk
      have := hkeep i e hk
      exact ⟨show applied < i by omega, hat⟩

/-- Every operation keeps what is local to a node, or stops the node. -/
theorem lwp_exec {op : Op} (hl : Local W s) (hop : OpLocal W s op) :
    LWp W op.exec (EndsSafe W) s := by
  cases op with
  | tick =>
    refine LWp.map _ (lwp_tick (fun _ => Or.inr (hl.of_core rfl)) (fun _ => ?_) fun _ _ =>
      lwp_startPreVote (hl.of_core rfl))
    exact lwp_broadcastAppend (by exact hl.toBody.of_core rfl) fun _ hs' => Or.inr (hl.of_core hs'.core)
  | step m => exact LWp.map _ (lwp_step hl hop)
  | propose command =>
    refine LWp.map _ (LWp.bind (LWp.of_get (LWp.ite (fun _ => LWp.of_pure (Or.inr hl)) fun _ => ?_)))
    exact lwp_proposeEntry hl rfl
  | proposeRequest operation clientID requestID key value =>
    refine LWp.map _ (LWp.bind (LWp.of_get (LWp.ite (fun _ => LWp.of_pure (Or.inr hl)) fun _ => ?_)))
    exact lwp_proposeEntry hl rfl
  | proposeJoint ids => exact LWp.map _ (lwp_proposeJoint hl hop)
  | proposeFinal => exact LWp.map _ (lwp_proposeFinal hl hop)
  | transferLeadership target =>
    exact LWp.map _ (lwp_transferLeadership (fun _ => hl.log_ne) hop (Or.inr hl)
      (lwp_appendToContext hl.log_ne fun s' hs' => Or.inr (hl.of_core hs'.core)) (lwp_answer hl))
  | startReadIndex context =>
    refine LWp.map _ (lwp_startReadIndex (fun _ => hl) (Or.inr hl) fun _ own index ready =>
      lwp_peers (fun p _ s' hs' => ?_) fun s' hs' => Or.inr (hl.of_core hs'.core))
    have hl' : Local W s' := hl.of_core hs'.core
    exact lwp_appendToContext hl'.log_ne fun s'' hs'' => hs'.trans hs''
  | applyEntries => exact LWp.map _ (lwp_applyEntries hl hop)
  | compact index state => exact LWp.map _ (lwp_compact hl)
  | drain => exact LWp.map _ (LWp.of_ok rfl (Or.inr (hl.of_core rfl)))

/-- Only a leader carries the operation out. -/
def Op.ForLeader : Op → Prop
  | .propose _ | .proposeRequest .. | .proposeJoint _ | .proposeFinal | .transferLeadership _
  | .startReadIndex _ => True
  | _ => False

/-- Another node refuses it, or panics. -/
theorem exec_refused {op : Op} (hop : op.ForLeader) (hs : s.state ≠ .leader) :
    finalState (op.exec s) = s := by
  have hrefuse : ∀ {c : Node σ → Bool} {f : Node σ → NodeM σ Bool}, c s = true →
      finalState ((do
        let n ← get
        if c n then return false
        f n : NodeM σ Bool) s) = s := by
    intro c f hc
    show finalState ((if c s then pure false else f s : NodeM σ Bool) s) = s
    rw [if_pos hc]
    rfl
  cases op with
  | propose command => exact (finalState_map _ Output.accepted s).trans (hrefuse (by simp [hs]))
  | proposeRequest operation clientID requestID key value =>
    exact (finalState_map _ Output.accepted s).trans (hrefuse (by simp [hs]))
  | proposeJoint ids =>
    refine (finalState_map _ Output.accepted s).trans (finalState_ask _ _ fun mask _ => ?_)
    cases mask with
    | none => rfl
    | some mask => exact hrefuse (by simp [hs])
  | proposeFinal => exact (finalState_map _ Output.accepted s).trans (hrefuse (by simp [hs]))
  | transferLeadership target =>
    exact (finalState_map _ Output.accepted s).trans (hrefuse (by simp [hs]))
  | startReadIndex context =>
    refine (finalState_map _ Output.accepted s).trans (finalState_ask _ _ fun may hmay => ?_)
    unfold Node.mayRead at hmay
    rw [if_pos (by simp [hs])] at hmay
    cases hmay
    rfl
  | _ => exact hop.elim

/-- A stopped node stays stopped. -/
theorem lwp_exec_stopped (op : Op) (hs : s.Stopped) : LWp {} op.exec (fun _ => Node.Stopped) s := by
  have hrefused : op.ForLeader → LWp {} op.exec (fun _ => Node.Stopped) s := fun hop => by
    refine LWp.of_final (exec_refused hop ?_) id hs
    rw [hs.follows]
    exact State.noConfusion
  cases op with
  | tick =>
    exact LWp.map _ (LWp.bind (LWp.of_get (LWp.ite (fun _ => LWp.of_pure hs) fun h =>
      absurd hs.faulted h)))
  | step m =>
    exact LWp.map _ (LWp.bind (LWp.of_get (LWp.ite (fun _ => LWp.of_pure hs) fun h =>
      absurd hs.faulted h)))
  | applyEntries =>
    refine LWp.map _ (LWp.bind (LWp.of_get ?_))
    refine (LWp.foldlM_range (I := fun _ => Node.Stopped) ?_ hs).mono fun _ _ hs' => hs'
    exact fun i _ _ dst s' hs' => LWp.bind (LWp.of_modify (LWp.bind (lwp_ask False.elim
      fun _ _ => LWp.of_pure { hs' with })))
  | compact index state =>
    refine LWp.map _ (LWp.bind (LWp.of_get (LWp.ite (fun _ => LWp.of_pure hs) fun _ => ?_)))
    cases s.termAt index with
    | none => exact LWp.of_pure hs
    | some term =>
      exact LWp.bind (lwp_saveAndCompact (fun store => LWp.bind (LWp.of_modify
        (LWp.of_pure { hs with }))) fun s' hs' => LWp.of_pure hs')
  | drain => exact LWp.map _ (LWp.of_ok rfl { hs with silent := rfl })
  | _ => exact hrefused trivial

end Promtact.Raft
