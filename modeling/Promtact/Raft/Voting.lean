import Promtact.Raft.Leading

/-!
# Terms and votes

The messages of an election. A node adopts a later term before it handles a
message, votes once in a term and only for a candidate whose log is up to date,
and counts a vote only when the history holds it.
-/

namespace Promtact.Raft

open QuorumLog GhostState

variable {σ : Type} [LawfulStore σ] {K : Setting σ} {n : Nat}
variable {h h' : History Nat Entry} {s : Node σ} {M : Mode} {j : Nat} {g g' : Hist K}
variable {m : Message}

/-! ## Terms -/

theorem LiveAt.dur_bump (hl : LiveAt K n M j h s) (hs : Sane K h) {t : Nat} (ht : s.term < t) :
    Dur K (h.bump n t) n ((LawfulStore.durable s.store).saveHardState
      { term := t, votedFor := 0, commit := s.commit }) := by
  have hlt : h.term n < t := by rw [hl.voted.1]; exact ht
  have hg := History.grows_bump (h := h) (n := n) (Nat.le_of_lt hlt)
  have hb := hl.base_le_commit
  rw [hl.synced.1] at hb
  refine {
    voted := ⟨by simp [History.bump, Durable.saveHardState], ?_⟩
    view := hl.dur.view
    commit_eq := hl.logged.commit_eq.trans (Nat.max_eq_left hb).symm
    base_le := hl.dur.base_le
    snapshot := hl.dur.snapshot.imp_right fun hf => hf.grow hg
    single := hl.dur.single
    reach := hl.dur.reach }
  exact hs.valid.vote_none hlt

theorem LiveAt.bump (hl : LiveAt K n M j h s) (hs : Sane K h) {t : Nat} (ht : s.term < t)
    {store : σ} (hst : LawfulStore.durable store = (LawfulStore.durable s.store).saveHardState
      { term := t, votedFor := 0, commit := s.commit }) :
    LiveAt K n M j (h.bump n t) { s with
      store := store, state := .follower, term := t, votedFor := 0, leader := 0
      readReady := false } := by
  have hlt : h.term n < t := by rw [hl.voted.1]; exact ht
  have hg := History.grows_bump (h := h) (n := n) (Nat.le_of_lt hlt)
  have hdur := hl.dur_bump hs ht
  rw [← hst] at hdur
  have hterm : (h.bump n t).term n = t := by simp [History.bump]
  exact { hl with
    voted := ⟨hterm, hs.valid.vote_none hlt⟩
    role := trivial
    read := hl.read.newTerm hs hg (by rw [hterm]; exact hlt)
    out := fun msg hmsg => (hl.out msg hmsg).grow hg
    dur := hdur
    synced := by rw [hst]; exact hl.synced }

/-- After a message is adopted the node is at its term or later. -/
theorem wp_adoptTerm {Q : Bool → Hist K → Node σ → Prop} (hl : LiveAt K n .full s.commit g.1 s)
    (hok : ∀ g' s', History.Grows n g.1 g'.1 → g'.1.log n = g.1.log n →
      g'.1.commit n = g.1.commit n → s'.baseIndex = s.baseIndex →
      (m.type = .preVote ∨ m.type = .preVoteResponse ∨ m.term ≤ s'.term) →
      LiveAt K n .full s'.commit g'.1 s' → Q true g' s')
    (hdead : ∀ g' s', Dead K n g'.1 s' → Q false g' s') : NWp K n (adoptTerm m) Q g s := by
  refine Wp.bind (Wp.of_get (Wp.ite (fun hno => ?_) fun hyes => ?_))
  · simp only [Bool.or_eq_true, decide_eq_true_eq] at hno
    exact Wp.of_pure (hok g s (History.Grows.refl n g.1) rfl rfl rfl (by tauto) hl)
  · simp only [Bool.or_eq_true, decide_eq_true_eq, not_or, Nat.not_le] at hyes
    have hlt : g.1.term n ≤ m.term := by rw [hl.voted.1]; exact Nat.le_of_lt hyes.2
    refine Wp.bind (wp_tryStore_dead ⟨g.1.bump n m.term, g.2.bump hlt⟩ (hl.down g.2)
      (fun _ => hl.settled g.2) (LawfulStore.saveHardState_atomic _ _) (Nat.le_refl _) ?_ (History.grows_bump hlt)
      (hl.dur_bump g.2 hyes.2) ?_ ?_)
    · exact fun hrel => (K.reliable_store hrel).saveHardState _ _ (hl.follows_newTerm hyes.2)
    · intro store hst
      refine Wp.bind (Wp.of_modify (Wp.of_pure ?_))
      exact hok ⟨_, g.2.bump hlt⟩ _ (History.grows_bump hlt) rfl rfl rfl
        (Or.inr (Or.inr (Nat.le_refl _))) (hl.bump g.2 hyes.2 hst)
    · intro g' s' hd
      exact Wp.of_pure (hdead g' s' hd)

/-! ## Votes -/

/-- The test of `upToDate` compares the candidate's log with the node's. -/
theorem wp_upToDate {Q : Bool → Hist K → Node σ → Prop} (hl : LiveAt K n M j g.1 s)
    (hq : ∀ b : Bool, (∀ x : List Entry, x.length = m.logIndex → K.P.lastTerm x = m.logTerm →
      b = true → K.P.UpToDate x (g.1.log n)) → Q b g s) : NWp K n (upToDate m) Q g s := by
  refine Wp.bind (Wp.of_get (Wp.bind (wp_ask (hl.down g.2)
    (fun _ => ⟨_, hl.logged.view.lastTerm⟩) fun lastTerm hlast => ?_)))
  rw [hl.logged.view.lastTerm] at hlast
  cases hlast
  refine Wp.of_pure (hq _ ?_)
  intro x hlen hterm hb
  simp only [Bool.or_eq_true, Bool.and_eq_true, decide_eq_true_eq] at hb
  rw [hl.logged.view.lastIndex] at hb
  unfold Protocol.UpToDate
  rw [hlen, hterm]
  rcases hb with hgt | ⟨heq, hge⟩
  · exact Or.inl hgt
  · exact Or.inr ⟨heq.symm, hge⟩

theorem wp_onPreVote (hl : LiveAt K n .full s.commit g.1 s) (hm : MsgInv K g.1 m)
    (hto : m.toID = n) : NWp K n (onPreVote m) (Ends K n) g s := by
  refine Wp.bind (Wp.of_get (Wp.bind (wp_upToDate hl fun up _ => ?_)))
  refine Wp.bind (wp_ask (hl.down g.2) (fun _ => hl.isVoter_sender hm) fun voter _ => ?_)
  refine wp_send hl ⟨?_, ?_, trivial, Or.inl rfl⟩ ?_
  · show Member K.voters s.id
    rw [hl.named.own]; exact hl.named.voter
  · show s.id ≠ m.fromID
    rw [hl.named.own, ← hto]; exact hm.other.symm
  · rintro _ ⟨_, _, rfl⟩ hl'
    exact Live.good hl'

/-- The vote that a node gives, or has given already. -/
theorem LiveAt.vote_step (hl : LiveAt K n M j h s) (hs : Sane K h) {c k : Nat} {x : List Entry}
    (hc0 : c ≠ 0) (hcand : h.cand c s.term = some (x, k)) (hup : K.P.UpToDate x (h.log n))
    (hfree : s.votedFor = 0 ∨ s.votedFor = c) :
    ∃ h', Sane K h' ∧ History.Grows n h h' ∧ h'.log n = h.log n ∧ h'.commit n = h.commit n ∧
      h'.term n = h.term n ∧ h'.lead = h.lead ∧ h'.cand = h.cand ∧ h'.ack = h.ack ∧
      h'.vote n s.term = some c := by
  have hterm := hl.voted.1
  rcases hfree with h0 | hsame
  · have hnone : h.vote n (h.term n) = none := by
      rw [hterm, hl.voted.2, if_pos h0]
    refine ⟨h.castVote n c, hs.castVote hnone (by rw [hterm]; exact hcand) hup,
      History.grows_castVote hnone, rfl, rfl, rfl, rfl, rfl, rfl, ?_⟩
    simp [History.castVote, hterm]
  · refine ⟨h, hs, History.Grows.refl n h, rfl, rfl, rfl, rfl, rfl, rfl, ?_⟩
    rw [hl.voted.2, if_neg (by rw [hsame]; exact hc0), hsame]

theorem wp_onVote (hl : LiveAt K n .full s.commit g.1 s) (hm : MsgInv K g.1 m)
    (htype : m.type = .requestVote) (hto : m.toID = n) :
    NWp K n (onVote m) (Ends K n) g s := by
  have hfrom : m.fromID ≠ n := by rw [← hto]; exact hm.other
  have hvoter : Member K.voters s.id := by rw [hl.named.own]; exact hl.named.voter
  have hother : s.id ≠ m.fromID := by rw [hl.named.own]; exact hfrom.symm
  refine Wp.bind (Wp.of_get (Wp.bind (wp_upToDate hl fun up hup => ?_)))
  refine Wp.bind (wp_ask (hl.down g.2) (fun _ => hl.isVoter_sender hm) fun voter _ => ?_)
  refine Wp.ite (fun _ => ?_) fun hgrant => ?_
  · refine wp_send hl ⟨hvoter, hother, (fun hr => by cases hr), Or.inl rfl⟩ ?_
    rintro _ ⟨_, _, rfl⟩ hl'
    exact Live.good hl'
  · simp only [Bool.not_eq_true', Bool.not_eq_false, Bool.and_eq_true, Bool.or_eq_true,
      decide_eq_true_eq] at hgrant
    obtain ⟨⟨⟨_, hterm⟩, hfree⟩, hupTrue⟩ := hgrant
    have hclaim := hm.claim
    unfold Claim at hclaim
    rw [htype] at hclaim
    obtain ⟨x, k, hcand, hlen, hlt⟩ := hclaim
    rw [hterm] at hcand
    have hc0 : m.fromID ≠ 0 := Nat.ne_of_gt hm.voter.1
    obtain ⟨h₁, hs₁, hg, hlog, hcommit, hterm₁, hlead, hcand₁, hack, hvote⟩ :=
      hl.vote_step g.2 hc0 hcand (hup x hlen hlt hupTrue) hfree
    have hvoted : Voted h₁ n s.term m.fromID := by
      refine ⟨hterm₁.trans hl.voted.1, ?_⟩
      rw [if_neg hc0]; exact hvote
    have hb := hl.base_le_commit
    rw [hl.synced.1] at hb
    have hdur : Dur K h₁ n ((LawfulStore.durable s.store).saveHardState
        { term := s.term, votedFor := m.fromID, commit := s.commit }) := {
      voted := hvoted
      view := by rw [hlog]; exact hl.dur.view
      commit_eq := hcommit.trans (hl.logged.commit_eq.trans (Nat.max_eq_left hb).symm)
      base_le := hl.dur.base_le
      snapshot := hl.dur.snapshot.imp_right fun hf => hf.grow hg
      single := by rw [hlog, hcommit]; exact hl.dur.single
      reach := by rw [hlog]; exact hl.dur.reach }
    refine Wp.bind (wp_tryStore_dead ⟨h₁, hs₁⟩ (hl.down g.2) (fun _ => hl.settled g.2)
      (LawfulStore.saveHardState_atomic _ _) (Nat.le_refl _) ?_ hg hdur ?_ ?_)
    · intro hrel
      refine (K.reliable_store hrel).saveHardState _ _ ?_
      obtain ⟨hf1, hf2, hf3⟩ := hl.follows (Nat.le_refl s.commit)
      refine ⟨hf1, hf2, fun ht => ?_⟩
      have hold := hl.voted.votedFor_eq hl.dur.voted
      rcases hfree with h0 | hsame
      · exact Or.inl (by rw [← hold]; exact h0)
      · exact Or.inr (by rw [← hold]; exact hsame.symm)
    · intro store hst
      have hl₁ : LiveAt K n .full s.commit h₁
          { s with store := store, votedFor := m.fromID, elapsed := 0 } := by
        refine { hl with
          voted := hvoted
          logged := by rw [hlog, hcommit]; exact hl.logged
          configured := by rw [hlog]; exact hl.configured
          single := by rw [hlog, hcommit]; exact hl.single
          role := ?_
          read := hl.read.advance hg hterm₁
          out := fun msg hmsg => (hl.out msg hmsg).grow hg
          dur := by rw [hst]; exact hdur
          synced := by rw [hst]; exact hl.synced }
        have hrole := hl.role
        show RoleInv _ h₁ n s.peers s.state s.voteMask s.matchIndex
        cases hstate : s.state with
        | follower => trivial
        | candidate =>
          rw [hstate] at hrole
          obtain ⟨hc, hno, hvotes⟩ := hrole
          refine ⟨by rw [hcand₁, hterm₁, hlog, hcommit]; exact hc, ?_, fun id hid => ?_⟩
          · unfold Reigns
            rw [hlead, hterm₁]
            exact hno
          · rw [hterm₁]; exact hg.vote' (hvotes id hid)
        | leader =>
          rw [hstate] at hrole
          unfold RoleInv Reigns
          rw [hlead, hterm₁, hlog, hack]
          exact hrole
      refine Wp.bind (Wp.of_modify (wp_send hl₁ ⟨hvoter, hother, fun _ => ?_, Or.inl rfl⟩ ?_))
      · show h₁.vote s.id s.term = some m.fromID
        rw [hl.named.own]; exact hvote
      · rintro _ ⟨_, _, rfl⟩ hl'
        exact Live.good hl'
    · intro g' s' hd
      exact Wp.of_pure (Or.inr hd)

theorem wp_onPreVoteResponse (hl : LiveAt K n .full s.commit g.1 s) (hm : MsgInv K g.1 m) :
    NWp K n (onPreVoteResponse m) (Ends K n) g s := by
  refine Wp.bind (Wp.of_get (Wp.ite (fun _ => Wp.of_pure (Live.good hl)) fun hstate => ?_))
  refine Wp.bind (wp_ask (hl.down g.2) (fun _ => hl.isVoter_sender hm) fun _ _ =>
    Wp.ite (fun _ => Wp.of_pure (Live.good hl)) fun _ => ?_)
  refine Wp.ite (fun _ => Wp.of_pure (Live.good hl)) fun _ => ?_
  refine Wp.bind (wp_ask (hl.down g.2) (fun _ => ⟨_, hm.nodeBit⟩) fun bit _ =>
    Wp.bind (Wp.of_modify ?_))
  have hl₁ : LiveAt K n .full s.commit g.1 { s with preVoteMask := s.preVoteMask ||| bit } :=
    { hl with }
  refine Wp.bind (wp_ask (hl₁.down g.2) (fun _ => ⟨_, hl₁.quorumMask _⟩) fun _ _ =>
    Wp.ite (fun _ => ?_) fun _ => ?_)
  · exact wp_startElection hl₁ hstate
  · exact Wp.of_pure (Live.good hl₁)

theorem wp_onVoteResponse (hl : LiveAt K n .full s.commit g.1 s) (hm : MsgInv K g.1 m)
    (htype : m.type = .requestVoteResponse) (hto : m.toID = n) :
    NWp K n (onVoteResponse m) (Ends K n) g s := by
  refine Wp.bind (Wp.of_get (Wp.ite (fun _ => Wp.of_pure (Live.good hl)) fun hstate => ?_))
  have hstate' : s.state = .candidate := not_not.mp hstate
  refine Wp.bind (wp_ask (hl.down g.2) (fun _ => hl.isVoter_sender hm) fun _ _ =>
    Wp.ite (fun _ => Wp.of_pure (Live.good hl)) fun _ => ?_)
  refine Wp.ite (fun _ => Wp.of_pure (Live.good hl)) fun hno => ?_
  simp only [Bool.or_eq_true, decide_eq_true_eq, not_or, not_not, ne_eq, Bool.not_eq_true] at hno
  have hclaim := hm.claim
  unfold Claim at hclaim
  rw [htype] at hclaim
  have hvote := hclaim hno.2
  rw [hno.1, hto] at hvote
  refine Wp.bind (wp_ask (hl.down g.2) (fun _ => ⟨_, hm.nodeBit⟩) fun bit hbit =>
    Wp.bind (Wp.of_modify ?_))
  obtain ⟨h0, h64, rfl⟩ := range_of_nodeBit hbit
  have hl₁ : LiveAt K n .full s.commit g.1
      { s with voteMask := s.voteMask ||| bitOf m.fromID } := by
    refine { hl with role := ?_ }
    have hrole := hl.role
    show RoleInv _ g.1 n s.peers s.state _ s.matchIndex
    rw [hstate'] at hrole ⊢
    refine ⟨hrole.1, hrole.2.1, fun id hid => ?_⟩
    rcases member_or.mp hid with hold | hnew
    · exact hrole.2.2 id hold
    · rw [(member_bitOf h0 h64).mp hnew, hl.voted.1]
      exact hvote
  refine Wp.bind (wp_ask (hl₁.down g.2) (fun _ => ⟨_, hl₁.quorumMask _⟩) fun b hb =>
    Wp.ite (fun hyes => ?_) fun _ => ?_)
  · exact wp_becomeLeader hl₁ hstate' (by rw [hb, hyes])
  · exact Wp.of_pure (Live.good hl₁)

theorem wp_onTimeoutNow (hl : LiveAt K n .full s.commit g.1 s) :
    NWp K n (onTimeoutNow m) (Ends K n) g s := by
  refine Wp.bind (Wp.of_get (Wp.ite (fun hyes => ?_) fun _ => Wp.of_pure (Live.good hl)))
  simp only [Bool.and_eq_true, decide_eq_true_eq] at hyes
  exact wp_startElection hl (by rw [hyes.1.1]; exact State.noConfusion)

end Promtact.Raft
