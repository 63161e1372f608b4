import Promtact.Raft.Committing

/-!
# Leading

What a node does on its own account: it stands for election, becomes leader,
appends proposals and sends its log. Every operation keeps `Good`, that is, it
ends with a running node or with one that its store has stopped.
-/

namespace Promtact.Raft

open QuorumLog GhostState
open Node (indexes)

variable {σ : Type} [LawfulStore σ] {K : Setting σ} {n : Nat}
variable {h h' : History Nat Entry} {s : Node σ} {M : Mode} {j : Nat} {g g' : Hist K}

/-! ## Modes -/

/-- Forgetting that match indexes are acknowledgements, that the pending index is
marked, or that one change is pending at most. -/
theorem LiveAt.weaken {M' : Mode} (hl : LiveAt K n M j h s) (ha : M'.acks → M.acks)
    (hp : M'.pend → M.pend) (hone : M'.single → M.single) : LiveAt K n M' j h s := by
  refine { hl with
    configured := ⟨hl.configured.1, fun hp' => hl.configured.2 (hp hp')⟩
    single := fun ht hs => hl.single ht (hone hs)
    role := ?_ }
  have hrole := hl.role
  cases hstate : s.state with
  | follower => trivial
  | candidate => rw [hstate] at hrole; exact hrole
  | leader =>
    rw [hstate] at hrole
    exact ⟨hrole.1, hrole.2.1, fun ha' => hrole.2.2 (ha ha')⟩

/-- Marking the last index as pending covers every change of voters. -/
theorem LiveAt.markPending (hl : LiveAt K n M j h s) :
    LiveAt K n { M with pend := True } j h { s with pendingConfig := s.lastIndex } := by
  refine { hl with configured := ⟨hl.configured.1, fun _ a ha hca => ?_⟩, role := hl.role }
  have hle := hca.le_length
  show s.lastIndex ≠ 0 ∧ a ≤ s.lastIndex
  rw [hl.logged.view.lastIndex]
  exact ⟨by omega, hle⟩

omit [LawfulStore σ] in
theorem resetProgress_frame (next : Nat) (l : List Nat) (s : Node σ) :
    ∃ nx mt, l.foldl (Node.resetProgress next) s = { s with next := nx, matchIndex := mt } ∧
      (∀ p, s.matchIndex p = 0 → mt p = 0) ∧ ∀ p ∈ l, mt p = 0 := by
  induction l generalizing s with
  | nil => exact ⟨s.next, s.matchIndex, rfl, fun _ h => h, by simp⟩
  | cons q l ih =>
    obtain ⟨nx, mt, he, hkeep, hzero⟩ := ih (s.resetProgress next q)
    refine ⟨nx, mt, he, ?_, ?_⟩
    · intro p hp
      apply hkeep
      by_cases hpq : p = q
      · simp [Node.resetProgress, hpq]
      · simp [Node.resetProgress, hpq, hp]
    · intro p hp
      rcases List.mem_cons.mp hp with rfl | hmem
      · exact hkeep p (by simp [Node.resetProgress])
      · exact hzero p hmem

theorem LiveAt.resetProgress (hl : LiveAt K n M j h s) (next : Nat) :
    LiveAt K n { M with acks := True } j h (s.peers.foldl (Node.resetProgress next) s) := by
  obtain ⟨nx, mt, he, _, hzero⟩ := resetProgress_frame next s.peers s
  rw [he]
  refine { hl with role := ?_, configured := hl.configured }
  have hrole := hl.role
  show RoleInv _ h n s.peers s.state s.voteMask mt
  cases hstate : s.state with
  | follower => trivial
  | candidate => rw [hstate] at hrole; exact hrole
  | leader =>
    rw [hstate] at hrole
    refine ⟨hrole.1, hrole.2.1, fun _ p hp => ?_⟩
    rw [hzero p hp]
    exact Nat.zero_le _

/-! ## Appending -/

theorem LiveAt.durable_lastIndex (hl : LiveAt K n M j h s) :
    (LawfulStore.durable s.store).lastIndex = s.lastIndex := by
  have h₁ := hl.dur.view.length
  rw [hl.logged.view.lastIndex]
  unfold Durable.lastIndex
  omega

/-- The store after the leader's own append. -/
theorem LiveAt.dur_extend (hl : LiveAt K n M j h s) {e : Entry} (he : Extends h h' n e)
    (hconf : IsConfig e → ∀ a, K.P.ConfAt (h.log n) a → a ≤ h.commit n) :
    Dur K h' n ((LawfulStore.durable s.store).append (s.lastIndex + 1) e) := by
  have hlen := hl.dur.view.length
  have hall : (LawfulStore.durable s.store).data.take
      (s.lastIndex + 1 - (LawfulStore.durable s.store).base) =
      (LawfulStore.durable s.store).data := by
    rw [hl.logged.view.lastIndex]
    exact List.take_of_length_le (by omega)
  refine {
    voted := ?_
    view := ?_
    commit_eq := by rw [he.commit_eq]; exact hl.dur.commit_eq
    base_le := hl.dur.base_le
    snapshot := hl.dur.snapshot.imp_right fun hf => hf.grow he.grows
    single := fun hn => by
      rw [he.log_eq, he.commit_eq]
      exact (hl.dur.single hn).concat hconf
    reach := fun hr => by
      rw [he.log_eq, List.length_append]
      exact Nat.le_add_right_of_le (hl.dur.reach hr) }
  · unfold Voted
    rw [he.term_eq, he.vote_eq]
    exact hl.dur.voted
  · unfold Durable.append
    rw [he.log_eq, hall]
    exact hl.dur.view.concat e

theorem LiveAt.extend (hl : LiveAt K n M s.commit h s) (hs : Sane K h) {e : Entry}
    (hstate : s.state = .leader) (he : Extends h h' n e) (hpend : M.pend → ¬ IsConfig e)
    (hconf : IsConfig e → ∀ a, K.P.ConfAt (h.log n) a → a ≤ h.commit n) {store : σ}
    (hst : LawfulStore.durable store =
      (LawfulStore.durable s.store).append (s.lastIndex + 1) e) :
    LiveAt K n M s.commit h' { s with store := store, log := s.log ++ [e] } := by
  have hcommit : s.commit ≤ (h.log n).length := by
    rw [← hl.logged.commit_eq]; exact hs.valid.commit_le n
  refine { hl with
    voted := ?_
    logged := ?_
    configured := ?_
    single := fun ht hM => by
      rw [he.log_eq, he.commit_eq]
      exact (hl.single ht hM).concat hconf
    role := ?_
    read := hl.read.advance he.grows he.term_eq
    out := fun m hm => (hl.out m hm).grow he.grows
    dur := by rw [hst]; exact hl.dur_extend he hconf
    synced := by rw [hst]; exact hl.synced }
  · unfold Voted
    rw [he.term_eq, he.vote_eq]
    exact hl.voted
  · rw [he.log_eq, he.commit_eq]
    exact { hl.logged with
      view := hl.logged.view.concat e
      baseTerm_eq := by
        rw [Protocol.termAt_of_pre (List.prefix_append _ _) hl.logged.view.1]
        exact hl.logged.baseTerm_eq }
  · rw [he.log_eq]
    refine ⟨?_, fun hp a ha hca => ?_⟩
    · rw [List.take_append_of_le_length hcommit]
      exact hl.configured.1
    · rcases confAt_concat.mp hca with hold | ⟨_, hnew⟩
      · exact hl.configured.2 hp a ha hold
      · exact absurd hnew (hpend hp)
  · have hrole := hl.role
    rw [hstate] at hrole
    show RoleInv M h' n s.peers s.state s.voteMask s.matchIndex
    rw [hstate]
    refine ⟨hrole.1.advance he.grows he.term_eq, ?_, fun ha p hp => ?_⟩
    · rw [he.log_eq, he.term_eq, List.length_append]
      exact he.ack_le
    · rw [he.term_eq]
      exact Nat.le_trans (hrole.2.2 ha p hp) (he.grows.ack_le' p _)

theorem LiveAt.nodeBit (hl : LiveAt K n M j h s) : nodeBit s.id = .ok (bitOf n) := by
  rw [hl.named.own]
  exact nodeBit_of_range hl.named.voter.1 hl.named.voter.2.1

theorem LiveAt.quorumMask (hl : LiveAt K n M s.commit h s) (w : Word) :
    s.quorumMask w = .ok (Node.jointMajority (effective K.voters (h.log n) s.commit) w) :=
  hl.logged.view.quorumMask hl.base_le_commit hl.configured.1 w

/-- The leader appends an entry that fits, and commits it when it is a quorum by
itself. -/
theorem wp_appendLocal {Q : Bool → Hist K → Node σ → Prop} {e : Entry}
    (hl : LiveAt K n M s.commit g.1 s) (hstate : s.state = .leader)
    (hterm : e.term = s.term) (hfit : Fits (configAfter K.voters (g.1.log n)) e)
    (hconf : IsConfig e → ∀ a, K.P.ConfAt (g.1.log n) a → a ≤ s.commit)
    (hallow : K.Allows (g.1.log n) e) (hpend : M.pend → ¬ IsConfig e)
    (hok : ∀ g' s', Reigns g'.1 n → LiveAt K n M s'.commit g'.1 s' → Q true g' s')
    (hdead : ∀ g' s', Dead K n g'.1 s' → Q false g' s') : NWp K n (appendLocal e) Q g s := by
  have hrole := hl.role
  rw [hstate] at hrole
  have hconf' : IsConfig e → ∀ a, K.P.ConfAt (g.1.log n) a → a ≤ g.1.commit n := by
    rwa [hl.logged.commit_eq]
  obtain ⟨h₁, hs₁, he⟩ := g.2.extend_own hrole.1 (hterm.trans hl.voted.1.symm) hfit hconf' hallow
  have hview := hl.logged.view
  have hlast := hl.durable_lastIndex
  have hbase : (LawfulStore.durable s.store).base < s.lastIndex + 1 := by
    have := hl.dur.view.1
    rw [hview.lastIndex]
    omega
  refine Wp.bind (Wp.of_get (Wp.bind (wp_tryStore_dead ⟨h₁, hs₁⟩ (hl.down g.2)
    (fun _ => hl.settled g.2) (LawfulStore.append_atomic _ _ _ hbase (by omega)) (Nat.le_refl _) ?_ he.grows
    (hl.dur_extend he hconf') ?_ ?_)))
  · exact fun hrel => (K.reliable_store hrel).append _ _ _ hbase (by omega)
  · intro store hst
    have hreign : Reigns h₁ n := hrole.1.advance he.grows he.term_eq
    have hcommit : h₁.commit n = s.commit := he.commit_eq.trans hl.logged.commit_eq
    refine Wp.bind (Wp.of_modify ?_)
    obtain ⟨s₁, hs₁eq⟩ : ∃ s₁ : Node σ, s₁ = { s with store := store, log := s.log ++ [e] } :=
      ⟨_, rfl⟩
    have hl₁ : LiveAt K n M s₁.commit h₁ s₁ := by
      rw [hs₁eq]; exact hl.extend g.2 hstate he hpend hconf' hst
    have hstate₁ : s₁.state = .leader := by rw [hs₁eq]; exact hstate
    have hcommit₁ : s₁.commit = s.commit := by rw [hs₁eq]
    rw [← hs₁eq]
    refine Wp.bind (wp_ask (hl₁.down hs₁) (fun _ => ⟨_, hl₁.nodeBit⟩) fun own hown => ?_)
    rw [hl₁.nodeBit] at hown
    cases hown
    refine Wp.bind (wp_ask (hl₁.down hs₁) (fun _ => ⟨_, hl₁.quorumMask _⟩) fun b hb =>
      Wp.ite (fun _ => ?_) fun hyes => ?_)
    · exact Wp.of_pure (hok _ _ hreign hl₁)
    · -- the leader is a quorum by itself
      have hyes' : b = true := by simpa using hyes
      subst hyes'
      rw [hl₁.quorumMask] at hb
      have hmaj := Except.ok.inj hb
      have hlast₁ := hl₁.logged.view.lastIndex
      have hlen : (h₁.log n).length = (g.1.log n).length + 1 := by
        rw [he.log_eq, List.length_append]; rfl
      have hcle := g.2.valid.commit_le n
      rw [hl.logged.commit_eq] at hcle
      obtain ⟨h₂, hs₂, hre⟩ := hs₁.choose_own (n := n) (i := (h₁.log n).length) (w := bitOf n)
        hreign (by omega) (Nat.le_refl _)
        (by
          rw [he.log_eq, List.length_append, he.term_eq]
          exact (Protocol.termAt_append_length _ _).trans (hterm.trans hl.voted.1.symm))
        (by rw [List.take_length, hcommit, ← hcommit₁]; exact hmaj)
        (by
          intro id hid
          obtain ⟨h0, h64, _⟩ := hl.named.voter
          rw [(member_bitOf h0 h64).mp hid, hlen, he.term_eq]
          exact he.ack_le)
      refine wp_commitOwn ⟨h₂, hs₂⟩ hl₁ (by rw [hstate₁]; exact State.noConfusion)
        (by omega) (by rwa [hlast₁]) ?_ hdead
      intro s' hc hl'
      rw [← hc] at hl'
      exact hok _ s' (hreign.advance hre.grows hre.term_eq) hl'
  · intro g' s' hd
    exact Wp.of_pure (hdead g' s' hd)

/-! ## Elections -/

theorem Live.good (hl : LiveAt K n .full s.commit h s) : Good K n h s := Or.inl hl

/-- The end of every operation. -/
abbrev Ends (K : Setting σ) (n : Nat) {α : Type} (_ : α) (g : Hist K) (s : Node σ) : Prop :=
  Good K n g.1 s

/-- A program that ends with broadcasts of a leader. -/
theorem wp_broadcast_good (hl : LiveAt K n .full s.commit g.1 s) (hr : Reigns g.1 n) :
    NWp K n broadcastAppend (Ends K n) g s := by
  refine wp_broadcastAppend hl trivial hr ?_
  rintro _ ⟨_, _, rfl⟩ hl'
  exact Live.good hl'

/-- A candidate that a majority voted for leads its term. -/
theorem LiveAt.lead (hl : LiveAt K n M j h s) (he : Elected h h' n) :
    LiveAt K n ⟨False, M.pend, M.single⟩ j h' { s with state := .leader, leader := s.id, elapsed := 0 } := by
  refine { hl with
    voted := ?_
    logged := by rw [he.log_eq, he.commit_eq]; exact hl.logged
    configured := by rw [he.log_eq]; exact hl.configured
    single := by rw [he.log_eq, he.commit_eq]; exact hl.single
    role := ?_
    read := ?_
    out := fun m hm => (hl.out m hm).grow he.grows
    dur := ?_ }
  · unfold Voted
    rw [he.term_eq, he.vote_eq]
    exact hl.voted
  · refine ⟨he.reigns, ?_, False.elim⟩
    rw [he.log_eq, he.term_eq]
    exact he.ack_le
  · exact { hl.read.advance he.grows he.term_eq with leads := fun _ => rfl }
  · refine {
      voted := ?_
      view := by rw [he.log_eq]; exact hl.dur.view
      commit_eq := by rw [he.commit_eq]; exact hl.dur.commit_eq
      base_le := hl.dur.base_le
      snapshot := hl.dur.snapshot.imp_right fun hf => hf.grow he.grows
      single := by rw [he.log_eq, he.commit_eq]; exact hl.dur.single
      reach := by rw [he.log_eq]; exact hl.dur.reach }
    unfold Voted
    rw [he.term_eq, he.vote_eq]
    exact hl.dur.voted

theorem wp_becomeLeader (hl : LiveAt K n .full s.commit g.1 s) (hstate : s.state = .candidate)
    (hq : s.quorumMask s.voteMask = .ok true) : NWp K n becomeLeader (Ends K n) g s := by
  have hrole := hl.role
  rw [hstate] at hrole
  obtain ⟨hcand, hno, hvotes⟩ := hrole
  rw [hl.quorumMask] at hq
  obtain ⟨h₁, hs₁, he⟩ := g.2.elect_own hl.named.voter hcand hno
    (by rw [hl.logged.commit_eq]; exact Except.ok.inj hq) hvotes
  have hl₁ := hl.lead he
  refine Wp.ghost (show Hist.Rel K n g ⟨h₁, hs₁⟩ from he.grows) ?_
  refine Wp.bind (Wp.of_modify (Wp.bind (Wp.of_get (Wp.bind ?_))))
  have hnoop : ¬ IsConfig { term := s.term, kind := .noop } := by simp [IsConfig]
  refine wp_appendLocal hl₁ rfl rfl ⟨rfl, rfl, rfl, rfl⟩ (fun hc => absurd hc hnoop)
    ⟨fun hc => absurd hc hnoop, fun hc => by cases hc⟩ (fun _ => hnoop) ?_ ?_
  · intro g' s' hreign hl'
    refine Wp.bind (Wp.of_modify ?_)
    have hl'' := hl'.resetProgress (s'.lastIndex + 1)
    obtain ⟨nx, mt, heq, _⟩ := resetProgress_frame (s'.lastIndex + 1) s'.peers s'
    rw [heq] at hl'' ⊢
    exact wp_broadcast_good hl'' hreign
  · intro g' s' hd
    exact Wp.of_pure (Or.inr hd)

/-- A barrier of an earlier term says nothing about a new one. -/
theorem ReadInv.newTerm {state state' : State} {context mask : Word} {index : Nat} {ready : Bool}
    (hs : Sane K h) (hr : ReadInv K h n state context mask index ready)
    (g : History.Grows n h h') (hlt : h.term n < h'.term n) :
    ReadInv K h' n state' context mask index false where
  leads := (nomatch ·)
  le := (nomatch ·)
  barrier hf hc := by
    obtain ⟨h₀, hst, hlead, _, _⟩ := hr.barrier hf hc
    refine ⟨h₀, hst, Reigns.grow_at hlead g, fun ht => ?_, (nomatch ·)⟩
    have := (hs.before n context h₀ hst).2.2 n
    omega

/-- Where a node that is not leading stands on reads. -/
theorem LiveAt.not_ready (hl : LiveAt K n M j h s) (hstate : s.state ≠ .leader) :
    s.readReady = false := by
  cases hr : s.readReady with
  | false => rfl
  | true => exact absurd (hl.read.leads hr) hstate

theorem LiveAt.dur_stand (hl : LiveAt K n M j h s) (hs : Sane K h) :
    Dur K (h.stand n (s.term + 1)) n ((LawfulStore.durable s.store).saveHardState
      { term := s.term + 1, votedFor := s.id, commit := s.commit }) := by
  have hterm : h.term n < s.term + 1 := by rw [hl.voted.1]; omega
  have hg := hs.grows_stand hterm
  have hb := hl.base_le_commit
  rw [hl.synced.1] at hb
  refine {
    voted := ?_
    view := hl.dur.view
    commit_eq := ?_
    base_le := hl.dur.base_le
    snapshot := hl.dur.snapshot.imp_right fun hf => hf.grow hg
    single := hl.dur.single
    reach := hl.dur.reach }
  · have hpos := hl.named.voter.1
    refine ⟨by simp [History.stand, Durable.saveHardState], ?_⟩
    simp only [Durable.saveHardState, hl.named.own, if_neg (Nat.ne_of_gt hpos)]
    simp [History.stand]
  · exact hl.logged.commit_eq.trans (Nat.max_eq_left hb).symm

theorem LiveAt.down_store (hl : LiveAt K n M j h s) (hs : Sane K h) (gr : History.Grows n h h')
    {store : σ} (hdur : Dur K h' n (LawfulStore.durable store)) :
    Down K n h' { s with store := store } :=
  { own := ⟨hl.named.own, hl.named.voter⟩, past := (hl.past hs).grow gr
    commit_le := Nat.le_trans (hl.down hs).commit_le (gr.commit_le' n)
    running := fun _ => hl.running, dur := hdur }

/-- A node stands for election in the next term. -/
theorem LiveAt.stand (hl : LiveAt K n M j h s) (hs : Sane K h) (hstate : s.state ≠ .leader)
    {store : σ} (hst : LawfulStore.durable store = (LawfulStore.durable s.store).saveHardState
      { term := s.term + 1, votedFor := s.id, commit := s.commit }) :
    LiveAt K n M j (h.stand n (s.term + 1)) { s with
      store := store, state := .candidate, term := s.term + 1, votedFor := s.id, elapsed := 0
      voteMask := bitOf n, preVoteMask := 0 } := by
  have hterm : h.term n < s.term + 1 := by rw [hl.voted.1]; omega
  have hg := hs.grows_stand hterm
  have hdur := hl.dur_stand hs
  rw [← hst] at hdur
  obtain ⟨h0, h64, _⟩ := hl.named.voter
  have hterm' : (h.stand n (s.term + 1)).term n = s.term + 1 := by simp [History.stand]
  have hvote : (h.stand n (s.term + 1)).vote n (s.term + 1) = some n := by simp [History.stand]
  refine { hl with
    voted := ?_
    role := ?_
    read := ?_
    out := fun m hm => (hl.out m hm).grow hg
    dur := hdur
    synced := by rw [hst]; exact hl.synced }
  · refine ⟨hterm', ?_⟩
    simp only [hl.named.own, if_neg (Nat.ne_of_gt h0)]
    exact hvote
  · refine ⟨by simp [History.stand], ?_, fun id hid => ?_⟩
    · rintro ⟨r, hr, hw⟩
      rw [hterm'] at hr
      exact hs.valid.lead_ne hr hterm hw
    · rw [(member_bitOf h0 h64).mp hid, hterm']
      exact hvote
  · have : ReadInv K _ n .candidate _ _ _ false :=
      hl.read.newTerm hs hg (by rw [hterm']; exact hterm)
    rwa [← hl.not_ready hstate] at this

theorem LiveAt.follows_newTerm (hl : LiveAt K n M j h s) {t v : Nat} (ht : s.term < t) :
    HardState.Follows { term := t, votedFor := v, commit := s.commit }
      (LawfulStore.durable s.store).hard := by
  have hc := hl.dur.commit_eq
  rw [hl.logged.commit_eq] at hc
  have hterm := hl.dur.voted.1.symm.trans hl.voted.1
  refine ⟨?_, ?_, ?_⟩
  · show _ ≤ t
    omega
  · show _ ≤ s.commit
    omega
  · intro heq
    have : t = (LawfulStore.durable s.store).hard.term := heq
    omega

/-- The term of the last entry, read in a later state of the same log. -/
theorem LiveAt.lastTerm (hl : LiveAt K n M j h s) {M' : Mode} {j' : Nat} {s' : Node σ}
    (hl' : LiveAt K n M' j' h s') : s'.termAtMust s.lastIndex = .ok (K.P.lastTerm (h.log n)) := by
  rw [hl.logged.view.lastIndex, ← hl'.logged.view.lastIndex]
  exact hl'.logged.view.lastTerm

theorem wp_startElection (hl : LiveAt K n .full s.commit g.1 s) (hstate : s.state ≠ .leader) :
    NWp K n startElection (Ends K n) g s := by
  have hterm : g.1.term n < s.term + 1 := by rw [hl.voted.1]; omega
  have hs₁ := g.2.stand hterm
  refine Wp.bind (Wp.of_get (Wp.bind (wp_tryStore_dead
    ⟨g.1.stand n (s.term + 1), hs₁⟩ (hl.down g.2)
    (fun _ => hl.settled g.2) (LawfulStore.saveHardState_atomic _ _) (Nat.le_refl _) ?_ (g.2.grows_stand hterm)
    (hl.dur_stand g.2) ?_ ?_)))
  · exact fun hrel => (K.reliable_store hrel).saveHardState _ _
      (hl.follows_newTerm (Nat.lt_succ_self _))
  · intro store hst
    have hl₁ := hl.stand g.2 hstate hst
    have hdown := hl.down_store g.2 (g.2.grows_stand hterm) hl₁.dur
    refine Wp.bind (wp_ask hdown (fun _ => ⟨_, hl.nodeBit⟩) fun own hown => ?_)
    rw [show nodeBit s.id = .ok (bitOf n) from hl.nodeBit] at hown
    cases hown
    refine Wp.bind (Wp.of_modify (Wp.bind (Wp.of_get (Wp.bind ?_))))
    refine wp_peers ?_ hl₁ ?_
    · intro p hp s' hf hl'
      refine Wp.bind (wp_ask (hl'.down hs₁) (fun _ => ⟨_, hl₁.lastTerm hl'⟩) fun lastTerm hlast => ?_)
      refine wp_send hl' ⟨?_, ?_, ?_, Or.inl rfl⟩ fun s'' hf' hl'' => ⟨rfl, hf.trans hf', hl''⟩
      · show Member K.voters s.id
        rw [hl.named.own]; exact hl.named.voter
      · show s.id ≠ p
        rw [hl.named.own]; exact (hl.named.peer p hp).2.2.symm
      · have hx := hl₁.logged.view.lastIndex
        refine ⟨g.1.log n, g.1.commit n, ?_, hx.symm, ?_⟩
        · show (g.1.stand n (s.term + 1)).cand s.id (s.term + 1) = _
          rw [hl.named.own]
          simp [History.stand]
        · exact Except.ok.inj ((hl₁.lastTerm hl').symm.trans hlast)
    · rintro _ ⟨nx, out, rfl⟩ hl'
      refine Wp.bind (wp_ask (hl'.down hs₁) (fun _ => ⟨_, hl'.quorumMask _⟩) fun b hb =>
        Wp.ite (fun hyes => ?_) fun _ => ?_)
      · exact wp_becomeLeader hl' rfl (by rw [hb, hyes])
      · exact Wp.of_pure (Live.good hl')
  · intro g' s' hd
    exact Wp.of_pure (Or.inr hd)

theorem wp_startPreVote (hl : LiveAt K n .full s.commit g.1 s) (hstate : s.state ≠ .leader) :
    NWp K n startPreVote (Ends K n) g s := by
  refine Wp.bind (wp_ask (hl.down g.2) (fun _ => ⟨_, hl.nodeBit⟩) fun own _ => ?_)
  refine Wp.bind (Wp.of_modify (Wp.bind (Wp.of_get (Wp.bind ?_))))
  have hl₁ : LiveAt K n .full s.commit g.1 { s with
      elapsed := 0, preVoteTerm := s.term + 1, leader := 0, preVoteMask := own } := { hl with }
  refine wp_peers ?_ hl₁ ?_
  · intro p hp s' hf hl'
    refine Wp.bind (wp_ask (hl'.down g.2) (fun _ => ⟨_, hl₁.lastTerm hl'⟩) fun lastTerm _ => ?_)
    refine wp_send hl' ⟨?_, ?_, trivial, Or.inl rfl⟩ fun s'' hf' hl'' => ⟨rfl, hf.trans hf', hl''⟩
    · show Member K.voters s.id
      rw [hl.named.own]; exact hl.named.voter
    · show s.id ≠ p
      rw [hl.named.own]; exact (hl.named.peer p hp).2.2.symm
  · rintro _ ⟨nx, out, rfl⟩ hl'
    refine Wp.bind (wp_ask (hl'.down g.2) (fun _ => ⟨_, hl'.quorumMask _⟩) fun b _ =>
      Wp.ite (fun _ => ?_) fun _ => ?_)
    · exact wp_startElection hl' hstate
    · exact Wp.of_pure (Live.good hl')

theorem LiveAt.reigns (hl : LiveAt K n M j h s) (hstate : s.state = .leader) : Reigns h n := by
  have hrole := hl.role
  rw [hstate] at hrole
  exact hrole.1

theorem wp_tick (hg : Good K n g.1 s) : NWp K n tick (Ends K n) g s := by
  refine Wp.bind (Wp.of_get (Wp.ite (fun _ => Wp.of_pure hg) fun hrun => ?_))
  rcases hg with hl | hd
  · refine Wp.bind (Wp.of_modify (Wp.bind (Wp.of_get ?_)))
    have hl₁ : LiveAt K n .full s.commit g.1 { s with elapsed := s.elapsed + 1 } :=
      { (hl : LiveAt K n .full s.commit g.1 s) with }
    refine Wp.ite (fun hlead => ?_) fun hno => ?_
    · refine Wp.ite (fun _ => Wp.bind (Wp.of_modify ?_)) fun _ => Wp.of_pure (Live.good hl₁)
      have hl₂ : LiveAt K n .full s.commit g.1 { s with elapsed := 0 } := { hl₁ with }
      exact wp_broadcast_good hl₂ (hl₁.reigns hlead)
    · refine Wp.ite (fun _ => ?_) fun _ => Wp.of_pure (Live.good hl₁)
      exact wp_startPreVote hl₁ hno
  · exact absurd hd.stopped hrun

/-! ## Proposals -/

/-- A node in the leader state is running. -/
theorem Good.live (hg : Good K n h s) (hstate : s.state = .leader) :
    LiveAt K n .full s.commit h s := by
  rcases hg with hl | hd
  · exact hl
  · rw [hd.state_eq] at hstate
    cases hstate

/-- A proposal of an entry that does not change the voters. -/
theorem wp_proposeEntry {e : Entry} (hl : LiveAt K n .full s.commit g.1 s)
    (hstate : s.state = .leader) (hterm : e.term = s.term) (hkind : e.kind = .normal)
    (hold : e.oldVoters = 0) (hnew : e.newVoters = 0) (hop : Proposed e)
    (hlegal : K.Legal (g.1.log n) e) :
    NWp K n (do
      if !(← appendLocal e) then return false
      broadcastAppend
      return true) (Ends K n) g s := by
  have hno : ¬ IsConfig e := by simp [IsConfig, hkind]
  have hfit : Fits (configAfter K.voters (g.1.log n)) e := by
    unfold Fits
    rw [hkind]
    exact ⟨hold, hnew, hop⟩
  refine Wp.bind (wp_appendLocal hl hstate hterm hfit (fun hc => absurd hc hno)
    ⟨fun hc => absurd hc hno, fun _ => hlegal⟩ (fun _ => hno) ?_ ?_)
  · intro g' s' hreign hl'
    refine Wp.bind ((wp_broadcast_good hl' hreign).mono ?_)
    exact fun _ _ _ hgood => Wp.of_pure hgood
  · intro g' s' hd
    exact Wp.of_pure (Or.inr hd)

theorem wp_propose (hg : Good K n g.1 s) (command : Word)
    (hlegal : s.state = .leader → K.Legal (g.1.log n) { term := s.term, command := command }) :
    NWp K n (propose command) (Ends K n) g s := by
  refine Wp.bind (Wp.of_get (Wp.ite (fun _ => Wp.of_pure hg) fun hno => ?_))
  simp only [Bool.or_eq_true, decide_eq_true_eq, not_or, not_not] at hno
  exact wp_proposeEntry (hg.live hno.1) hno.1 rfl rfl rfl rfl (Or.inl rfl) (hlegal hno.1)

theorem wp_proposeRequest (hg : Good K n g.1 s) (operation : CommandOp)
    (clientID requestID key value : Word)
    (hlegal : s.state = .leader → K.Legal (g.1.log n) {
      term := s.term, operation := operation, clientID := clientID, requestID := requestID
      key := key, value := value }) :
    NWp K n (proposeRequest operation clientID requestID key value) (Ends K n) g s := by
  refine Wp.bind (Wp.of_get (Wp.ite (fun _ => Wp.of_pure hg) fun hno => ?_))
  simp only [Bool.or_eq_true, Bool.and_eq_true, decide_eq_true_eq, not_or, not_and_or,
    not_not] at hno
  obtain ⟨⟨⟨⟨hstate, _⟩, hclient⟩, hrequest⟩, hop⟩ := hno
  exact wp_proposeEntry (hg.live hstate) hstate rfl rfl rfl rfl (Or.inr ⟨hop, hclient, hrequest⟩)
    (hlegal hstate)

/-- Without a pending change the whole log establishes the node's voters. -/
theorem LiveAt.no_pending (hl : LiveAt K n .full s.commit h s) (hp : s.pendingConfig = 0) :
    (∀ a, K.P.ConfAt (h.log n) a → a ≤ s.commit) ∧
      configAfter K.voters (h.log n) = (s.votersOld, s.votersNew) := by
  have hno : ∀ a, s.commit < a → ¬ K.P.ConfAt (h.log n) a :=
    fun a ha hca => (hl.configured.2 trivial a ha hca).1 hp
  refine ⟨fun a hca => ?_, ?_⟩
  · by_contra hgt
    exact hno a (by omega) hca
  · rw [← configAfter_take hno]
    exact hl.configured.1

/-- A proposal of a change of voters. -/
theorem wp_proposeConfig {e : Entry} (hl : LiveAt K n .full s.commit g.1 s)
    (hstate : s.state = .leader) (hterm : e.term = s.term) (hallow : K.Allows (g.1.log n) e)
    (hp : s.pendingConfig = 0) (hfit : Fits (s.votersOld, s.votersNew) e) :
    NWp K n (do
      if !(← appendLocal e) then return false
      modify fun n => { n with pendingConfig := n.lastIndex }
      broadcastAppend
      return true) (Ends K n) g s := by
  obtain ⟨hall, hcfg⟩ := hl.no_pending hp
  have hl₁ : LiveAt K n ⟨True, False, True⟩ s.commit g.1 s :=
    hl.weaken (fun h => h) False.elim fun h => h
  refine Wp.bind (wp_appendLocal hl₁ hstate hterm (by rwa [hcfg]) (fun _ => hall)
    hallow False.elim ?_ ?_)
  · intro g' s' hreign hl'
    refine Wp.bind (Wp.of_modify (Wp.bind ((wp_broadcast_good hl'.markPending hreign).mono ?_)))
    exact fun _ _ _ hgood => Wp.of_pure hgood
  · intro g' s' hd
    exact Wp.of_pure (Or.inr hd)

theorem voterMaskLoop_keeps {ids : List Nat} {mask w : Word} {id : Nat}
    (hm : voterMaskLoop ids mask = .ok (some w)) (hid : Member mask id) : Member w id := by
  induction ids generalizing mask with
  | nil =>
    cases hm
    exact hid
  | cons p ids ih =>
    unfold voterMaskLoop at hm
    cases hb : nodeBit p with
    | error e => rw [hb] at hm; cases hm
    | ok bit =>
      rw [hb] at hm
      by_cases hdup : mask &&& bit ≠ 0
      · simp only [bind, Except.bind, if_pos hdup] at hm
        cases hm
      · simp only [bind, Except.bind, if_neg hdup] at hm
        exact ih hm (member_or.mpr (Or.inl hid))

/-- The mask of a list of voters has no other nodes. -/
theorem voterMaskLoop_mem {ids : List Nat} {mask w : Word} {id : Nat}
    (hm : voterMaskLoop ids mask = .ok (some w)) (hid : Member w id) :
    Member mask id ∨ id ∈ ids := by
  induction ids generalizing mask with
  | nil =>
    cases hm
    exact Or.inl hid
  | cons p ids ih =>
    obtain ⟨bit, hbit, hm⟩ := bind_eq_ok.mp hm
    obtain ⟨h0, h64, rfl⟩ := range_of_nodeBit hbit
    split at hm
    · cases hm
    · rcases ih hm with hold | hin
      · refine (member_or.mp hold).imp_right fun hp => ?_
        rw [(member_bitOf h0 h64).mp hp]
        exact List.mem_cons_self
      · exact Or.inr (List.mem_cons_of_mem p hin)

theorem voterMask_mem {ids : List Nat} {w : Word} {id : Nat} (hm : voterMask ids = .ok (some w))
    (hid : Member w id) : id ∈ ids := by
  unfold voterMask at hm
  split at hm
  · cases hm
  · exact (voterMaskLoop_mem hm hid).resolve_left fun h0 => member_ne_zero h0 rfl

/-- A list of voters is never the empty mask. -/
theorem voterMask_ne_zero {ids : List Nat} {w : Word} (hm : voterMask ids = .ok (some w)) :
    w ≠ 0 := by
  cases ids with
  | nil => cases hm
  | cons p ids =>
    unfold voterMask at hm
    rw [if_neg (by simp)] at hm
    unfold voterMaskLoop at hm
    cases hb : nodeBit p with
    | error e => rw [hb] at hm; cases hm
    | ok bit =>
      rw [hb] at hm
      obtain ⟨h0, h64, rfl⟩ := range_of_nodeBit hb
      have hzero : ¬ ((0 : Word) &&& bitOf p ≠ 0) := by simp
      simp only [bind, Except.bind, if_neg hzero] at hm
      have hmem : Member w p :=
        voterMaskLoop_keeps hm (member_or.mpr (Or.inr ((member_bitOf h0 h64).mpr rfl)))
      rintro rfl
      simpa using hmem.2.2

theorem LiveAt.votersOld_ne_zero (hl : LiveAt K n M j h s) (hs : Sane K h) : s.votersOld ≠ 0 := by
  have hv : K.voters ≠ 0 := by
    rintro h0
    have := hl.named.voter.2.2
    rw [h0] at this
    simp at this
  have hne := configAfter_old_ne_zero hv (hs.log_wf ((hs.valid.log_sound n).take j))
  rw [hl.configured.1] at hne
  exact hne

/-- In a closed setting a node only knows initial voters. -/
theorem LiveAt.within (hl : LiveAt K n M j h s) (hs : Sane K h) :
    K.Within (s.votersOld ||| s.votersNew) := by
  have := hs.config_within ((hs.valid.log_sound n).take j)
  rwa [hl.configured.1] at this

theorem wp_proposeJoint (hg : Good K n g.1 s) (newVoters : List Nat) (hrc : K.reconf)
    (hclosed : K.closed → ∀ id ∈ newVoters, Member K.voters id) :
    NWp K n (proposeJoint newVoters) (Ends K n) g s := by
  have hdown : Down K n g.1 s := hg.elim (fun hl => hl.down g.2) fun hd => hd.toDown
  refine Wp.bind (wp_ask hdown (fun hk => absurd hrc (K.calm_fixed hk)) fun mask hmask => ?_)
  cases mask with
  | none => exact Wp.of_pure hg
  | some newMask =>
    refine Wp.bind (Wp.of_get (Wp.ite (fun _ => Wp.of_pure hg) fun hno => ?_))
    simp only [Bool.or_eq_true, decide_eq_true_eq, not_or, not_not, ne_eq] at hno
    obtain ⟨⟨⟨hstate, _⟩, hnew⟩, hpend⟩ := hno
    have hl := hg.live hstate
    have hwithin : K.Within newMask := fun hc id hid => hclosed hc id (voterMask_mem hmask hid)
    refine Wp.bind (Wp.of_modify ?_)
    have hl₁ : LiveAt K n .full (s.ensurePeers newMask).commit g.1 (s.ensurePeers newMask) := by
      rw [ensurePeers_commit]; exact hl.ensurePeers hwithin
    have hframe : ∀ {β : Type} (f : Node σ → β),
        (∀ (s : Node σ) peers next matchIndex,
          f { s with peers := peers, next := next, matchIndex := matchIndex } = f s) →
        f (s.ensurePeers newMask) = f s := fun f hf => ensurePeers_frame f hf newMask s
    refine wp_proposeConfig hl₁ ?_ ?_ ⟨fun _ => ⟨hrc, fun hc id hid => ?_⟩, (nomatch ·)⟩ ?_ ?_
    · rw [hframe Node.state fun _ _ _ _ => rfl]; exact hstate
    · exact (hframe Node.term fun _ _ _ _ => rfl).symm
    · rcases member_or.mp hid with hold | hnew'
      · exact hl.within g.2 hc id (member_or.mpr (Or.inl hold))
      · exact hwithin hc id hnew'
    · rw [hframe Node.pendingConfig fun _ _ _ _ => rfl]; exact hpend
    · rw [hframe Node.votersOld fun _ _ _ _ => rfl, hframe Node.votersNew fun _ _ _ _ => rfl]
      exact ⟨hnew, rfl, hl.votersOld_ne_zero g.2, voterMask_ne_zero hmask⟩

theorem wp_proposeFinal (hg : Good K n g.1 s) : NWp K n proposeFinal (Ends K n) g s := by
  refine Wp.bind (Wp.of_get (Wp.ite (fun _ => Wp.of_pure hg) fun hno => ?_))
  simp only [Bool.or_eq_true, decide_eq_true_eq, not_or, not_not, ne_eq] at hno
  obtain ⟨⟨⟨hstate, _⟩, hnew⟩, hpend⟩ := hno
  have hl := hg.live hstate
  have hrc : K.reconf := by
    by_contra hfixed
    exact hnew (hl.voters_fixed g.2 hfixed).2
  refine wp_proposeConfig hl hstate rfl ⟨fun _ => ⟨hrc, fun hc id hid => ?_⟩, (nomatch ·)⟩ hpend
    ⟨hnew, rfl, rfl⟩
  exact hl.within g.2 hc id (member_or.mpr (Or.inr
    ((member_or.mp hid).resolve_right fun h0 => member_ne_zero h0 rfl)))

theorem wp_transferLeadership (hg : Good K n g.1 s) (target : Nat)
    (hid : K.calm → 0 < target ∧ target ≤ 64) : NWp K n (transferLeadership target) (Ends K n) g s := by
  refine Wp.bind (Wp.of_get (Wp.ite (fun _ => Wp.of_pure hg) fun hno => ?_))
  simp only [Bool.or_eq_true, decide_eq_true_eq, not_or, not_not, ne_eq] at hno
  have hl := hg.live hno.1
  have hother : target ≠ n := by rw [← hl.named.own]; exact hno.2
  refine Wp.bind (wp_ask (hl.down g.2)
    (fun hk => hl.logged.view.isVoter_ok (hid hk).1 (hid hk).2) fun b _ =>
      Wp.ite (fun _ => Wp.of_pure hg) fun _ => ?_)
  refine Wp.ite (fun _ => Wp.bind ?_) fun _ => Wp.bind ?_
  · refine wp_appendTo hl trivial (hl.reigns hno.1) hother ?_
    rintro _ ⟨_, _, rfl⟩ hl'
    exact Wp.of_pure (Live.good hl')
  · refine wp_send hl ⟨?_, ?_, trivial, Or.inl rfl⟩ ?_
    · show Member K.voters s.id
      rw [hl.named.own]; exact hl.named.voter
    · show s.id ≠ target
      rw [hl.named.own]; exact hother.symm
    · rintro _ ⟨_, _, rfl⟩ hl'
      exact Wp.of_pure (Live.good hl')

end Promtact.Raft
