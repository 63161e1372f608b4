import Promtact.Raft.Sending

/-!
# Appending and committing

What a leader does to its own log, and how a commit index moves. The steps of the
history are packaged once (`Extends`, `Recommits`, `Elected`), so that the
programs only see what they change at their own node.
-/

namespace Promtact.Raft

open QuorumLog GhostState
open Node (indexes)

variable {σ : Type} [LawfulStore σ] {K : Setting σ} {n : Nat} {α : Type}
variable {h h' : History Nat Entry} {s : Node σ} {M : Mode} {j : Nat}

/-! ## Steps of the history as seen by their node -/

/-- Node `n` moved its commit index to `i`. -/
structure Recommits (h h' : History Nat Entry) (n i : Nat) : Prop where
  grows : History.Grows n h h'
  log_eq : h'.log n = h.log n
  term_eq : h'.term n = h.term n
  vote_eq : h'.vote n = h.vote n
  commit_eq : h'.commit n = i

/-- The leader `n` appended `e` and acknowledged it. -/
structure Extends (h h' : History Nat Entry) (n : Nat) (e : Entry) : Prop where
  grows : History.Grows n h h'
  log_eq : h'.log n = h.log n ++ [e]
  term_eq : h'.term n = h.term n
  vote_eq : h'.vote n = h.vote n
  commit_eq : h'.commit n = h.commit n
  ack_le : (h.log n).length + 1 ≤ h'.ack n (h.term n)

/-- Node `n` became the leader of its term. -/
structure Elected (h h' : History Nat Entry) (n : Nat) : Prop where
  grows : History.Grows n h h'
  log_eq : h'.log n = h.log n
  term_eq : h'.term n = h.term n
  vote_eq : h'.vote n = h.vote n
  commit_eq : h'.commit n = h.commit n
  reigns : Reigns h' n
  ack_le : (h.log n).length ≤ h'.ack n (h.term n)

namespace Sane

variable (hs : Sane K h)
include hs

/-- A majority has acknowledged an entry of the leader's term. -/
theorem choose_own {i : Nat} {w : Word} (hr : Reigns h n) (hlt : h.commit n < i)
    (hi : i ≤ (h.log n).length) (hti : K.P.termAt (h.log n) i = h.term n)
    (hw : Node.jointMajority (effective K.voters ((h.log n).take i) (h.commit n)) w = true)
    (hacks : ∀ id, Member w id → i ≤ h.ack id (h.term n)) :
    ∃ h', Sane K h' ∧ Recommits h h' n i := by
  obtain ⟨r, hr, hwho, hlog⟩ := hr.log hs
  subst hwho
  have hlen : ((h.log r.who).take i).length = i := by simp [hi]
  have hE := effective_of_majority
    (hs.log_wf ((hs.valid.log_sound r.who).take i)) (by rw [hlen]; omega) hw
  refine ⟨h.choose (h.term r.who) r i, ?_, ?_⟩
  · refine hs.choose hr rfl hlt (by rwa [hlog]) (by rwa [hlog]) ?_
    rw [hlog]
    exact hE.mono hacks
  · exact {
      grows := History.grows_choose (Nat.le_of_lt hlt)
      log_eq := rfl
      term_eq := rfl
      vote_eq := rfl
      commit_eq := by simp [History.choose] }

/-- A node learns that a prefix of its log is committed. -/
theorem learn_own {i : Nat} (hle : h.commit n ≤ i) (hi : i ≤ (h.log n).length)
    (hc : h.Committed (h.term n) ((h.log n).take i)) :
    ∃ h', Sane K h' ∧ Recommits h h' n i :=
  ⟨h.learn n i, hs.learn hle hi hc, {
    grows := History.grows_learn hle
    log_eq := rfl
    term_eq := rfl
    vote_eq := rfl
    commit_eq := by simp [History.learn] }⟩

theorem extend_own {e : Entry} (hr : Reigns h n) (he : e.term = h.term n)
    (hfit : Fits (configAfter K.voters (h.log n)) e)
    (hconf : IsConfig e → ∀ a, K.P.ConfAt (h.log n) a → a ≤ h.commit n)
    (hallow : K.Allows (h.log n) e) : ∃ h', Sane K h' ∧ Extends h h' n e := by
  obtain ⟨r, hr, hwho, hlog⟩ := hr.log hs
  subst hwho
  have h₁ := hs.extend hr rfl he (by rwa [hlog]) (by rwa [hlog]) (by rwa [hlog])
  have hlen : (h.log r.who).length + 1 = (r.log ++ [e]).length := by simp [hlog]
  have hlead : (h.extend (h.term r.who) r e).lead
      ((h.extend (h.term r.who) r e).term r.who) = some { r with log := r.log ++ [e] } := by
    simp [History.extend]
  have hpre : (r.log ++ [e]).take ((h.log r.who).length + 1) <+:
      (h.extend (h.term r.who) r e).log r.who := by
    simp only [History.extend, Function.update_self]
    exact List.take_prefix _ _
  have h₂ := h₁.raise (n := r.who) hlead (Nat.le_of_eq hlen) hpre
  refine ⟨_, h₂, ?_⟩
  exact {
    grows := (History.grows_extend hr).trans (History.grows_raise _)
    log_eq := by simp [History.raise, History.extend, hlog]
    term_eq := rfl
    vote_eq := rfl
    commit_eq := rfl
    ack_le := by simp [History.raise, History.extend] }

/-- A majority voted for the candidate. -/
theorem elect_own {w : Word} (hn : Member K.voters n)
    (hc : h.cand n (h.term n) = some (h.log n, h.commit n))
    (hno : ¬ Reigns h n) (hw : Node.jointMajority (effective K.voters (h.log n) (h.commit n)) w = true)
    (hvotes : ∀ id, Member w id → h.vote id (h.term n) = some n) :
    ∃ h', Sane K h' ∧ Elected h h' n := by
  have hE : K.P.Effective (h.log n) (h.commit n) {m | h.vote m (h.term n) = some n} :=
    (effective_of_majority (hs.log_wf (hs.valid.log_sound n)) (hs.valid.commit_le n) hw).mono hvotes
  have hnone : h.lead (h.term n) = none := by
    cases hr : h.lead (h.term n) with
    | none => rfl
    | some r =>
      have hq := (hs.valid.lead_quorum hr).mono
        (T := {m | h.vote m (h.term n) = some r.who}) (hs.valid.lead_votes hr)
      exact absurd ⟨r, hr, hs.valid.elected_unique (hs.valid.lead_cand hr) hq hc hE⟩ hno
  have h₁ := hs.elect hn hnone hc hE
  have hlead : (h.elect n).lead ((h.elect n).term n) = some (h.reign n) := by
    simp [History.elect]
  have h₂ := h₁.raise (n := n) hlead (k := (h.log n).length) (Nat.le_refl _)
    (List.take_prefix _ _)
  refine ⟨_, h₂, ?_⟩
  exact {
    grows := (History.grows_elect hnone).trans (History.grows_raise _)
    log_eq := rfl
    term_eq := rfl
    vote_eq := rfl
    commit_eq := rfl
    reigns := ⟨h.reign n, hlead, rfl⟩
    ack_le := by simp [History.raise, History.elect] }

end Sane

/-! ## Own steps keep a node running -/

theorem Voted.votedFor_eq {t t' v v' : Nat} (hv : Voted h n t v) (hv' : Voted h n t' v') :
    v = v' := by
  obtain ⟨ht, hvote⟩ := hv
  obtain ⟨ht', hvote'⟩ := hv'
  rw [← ht] at hvote
  rw [← ht', hvote] at hvote'
  by_cases h0 : v = 0 <;> by_cases h0' : v' = 0 <;> simp_all

/-- What a running node writes never goes back. -/
theorem LiveAt.follows (hl : LiveAt K n M j h s) {i : Nat} (hi : s.commit ≤ i) :
    HardState.Follows { term := s.term, votedFor := s.votedFor, commit := i }
      (LawfulStore.durable s.store).hard := by
  have hc := hl.dur.commit_eq
  rw [hl.logged.commit_eq] at hc
  refine ⟨Nat.le_of_eq (hl.dur.voted.1.symm.trans hl.voted.1), ?_, fun _ => Or.inr ?_⟩
  · show _ ≤ i
    omega
  · exact hl.voted.votedFor_eq hl.dur.voted

theorem LiveAt.base_le_commit (hl : LiveAt K n M j h s) : s.baseIndex ≤ s.commit :=
  Nat.le_trans hl.logged.base_le hl.logged.applied_le

theorem ReadInv.advance {state : State} {context mask : Word} {index : Nat} {ready : Bool}
    (hr : ReadInv K h n state context mask index ready) (g : History.Grows n h h')
    (hterm : h'.term n = h.term n) : ReadInv K h' n state context mask index ready where
  leads := hr.leads
  le hready := Nat.le_trans (hr.le hready) g.commit_le
  barrier hf hc := by
    obtain ⟨h₀, hst, hlead, hacks, hready⟩ := hr.barrier hf hc
    refine ⟨h₀, hst, Reigns.grow_at hlead g, ?_, hready⟩
    rw [hterm]
    intro ht
    obtain ⟨hchosen, hmask⟩ := hacks ht
    exact ⟨fun t i hci hti => Nat.le_trans (hchosen t i hci hti) g.commit_le, hmask⟩

theorem Reigns.advance (hr : Reigns h n) (g : History.Grows n h h')
    (hterm : h'.term n = h.term n) : Reigns h' n := by
  unfold Reigns
  rw [hterm]
  exact Reigns.grow_at hr g

/-- The hard state with a new commit index. -/
theorem LiveAt.dur_recommit (hl : LiveAt K n M j h s) {i : Nat} (hr : Recommits h h' n i)
    (hi : s.commit ≤ i) :
    Dur K h' n ((LawfulStore.durable s.store).saveHardState
      { term := s.term, votedFor := s.votedFor, commit := i }) := by
  refine {
    voted := ?_
    view := by rw [hr.log_eq]; exact hl.dur.view
    commit_eq := ?_
    base_le := hl.dur.base_le
    snapshot := hl.dur.snapshot.imp_right fun hf => hf.grow hr.grows
    single := fun hn => by rw [hr.log_eq]; exact (hl.dur.single hn).mono hr.grows.commit_le
    reach := by rw [hr.log_eq]; exact hl.dur.reach }
  · unfold Voted
    rw [hr.term_eq, hr.vote_eq]
    exact hl.voted
  · have hb := hl.base_le_commit
    rw [hl.synced.1] at hb
    rw [hr.commit_eq]
    exact (Nat.max_eq_left (Nat.le_trans hb hi)).symm

theorem LiveAt.recommit (hl : LiveAt K n M j h s) {i : Nat} (hc : s.state ≠ .candidate)
    (hr : Recommits h h' n i) (hi : s.commit ≤ i) {store : σ}
    (hst : LawfulStore.durable store = (LawfulStore.durable s.store).saveHardState
      { term := s.term, votedFor := s.votedFor, commit := i }) :
    LiveAt K n M j h' { s with commit := i, store := store } := by
  refine { hl with
    voted := ?_
    logged := ?_
    configured := by rw [hr.log_eq]; exact hl.configured
    single := fun ht hM => by rw [hr.log_eq]; exact (hl.single ht hM).mono hr.grows.commit_le
    role := ?_
    read := hl.read.advance hr.grows hr.term_eq
    out := fun m hm => (hl.out m hm).grow hr.grows
    dur := by rw [hst]; exact hl.dur_recommit hr hi
    synced := by rw [hst]; exact hl.synced }
  · unfold Voted
    rw [hr.term_eq, hr.vote_eq]
    exact hl.voted
  · rw [hr.log_eq, hr.commit_eq]
    exact { hl.logged with
      commit_eq := rfl
      applied_le := Nat.le_trans hl.logged.applied_le hi }
  · have hrole := hl.role
    show RoleInv M h' n s.peers s.state s.voteMask s.matchIndex
    cases hstate : s.state with
    | follower => trivial
    | candidate => exact absurd hstate hc
    | leader =>
      rw [hstate] at hrole
      obtain ⟨hreign, hlen, hacks⟩ := hrole
      refine ⟨hreign.advance hr.grows hr.term_eq, ?_, fun ha p hp => ?_⟩
      · rw [hr.log_eq, hr.term_eq]
        exact Nat.le_trans hlen (hr.grows.ack_le _)
      · rw [hr.term_eq]
        exact Nat.le_trans (hacks ha p hp) (hr.grows.ack_le' p _)

/-! ## Peers -/

/-- The configured nodes are the node and its peers. -/
theorem member_initialVoters {peers : List Nat} {voters : Word} {id : Nat}
    (hv : initialVoters n peers = .ok voters) : Member voters id ↔ id = n ∨ id ∈ peers := by
  obtain ⟨own, hown, hf⟩ := bind_eq_ok.mp hv
  obtain ⟨h0, h64, rfl⟩ := range_of_nodeBit hown
  have hseen : ∀ (peers : List Nat) (seen : Word), peers.foldlM (fun seen peer => do
      let bit ← nodeBit peer
      if seen &&& bit ≠ 0 then throw Panic.duplicateNodeID
      return seen ||| bit) seen = .ok voters → (Member voters id ↔ Member seen id ∨ id ∈ peers) := by
    intro peers
    induction peers with
    | nil =>
      rintro _ ⟨⟩
      simp
    | cons p peers ih =>
      intro seen hf
      rw [List.foldlM_cons] at hf
      obtain ⟨next, hnext, hf⟩ := bind_eq_ok.mp hf
      obtain ⟨bit, hbit, hnext⟩ := bind_eq_ok.mp hnext
      obtain ⟨h0, h64, rfl⟩ := range_of_nodeBit hbit
      split at hnext
      · cases hnext
      · cases hnext
        rw [ih _ hf, member_or, member_bitOf h0 h64, List.mem_cons, or_assoc]
  rw [hseen peers _ hf, member_bitOf h0 h64]

/-- One round of `ensurePeers` only adds other nodes. -/
theorem Named.ensurePeer (hn : Named K n s.id s.peers) {mask : Word} (hmask : K.Within mask)
    {id : Nat} (h0 : 0 < id) (h64 : id ≤ 64) :
    Named K n (s.ensurePeer mask id).id (s.ensurePeer mask id).peers := by
  unfold Node.ensurePeer
  split
  · exact hn
  · rename_i hno
    simp only [not_or] at hno
    have hother : id ≠ n := by rw [← hn.own]; exact hno.1
    refine { own := hn.own, voter := hn.voter, peer := fun p hp => ?_, closed := fun hc => ?_ }
    · rcases List.mem_append.mp hp with hold | hnew
      · exact hn.peer p hold
      · rw [List.mem_singleton] at hnew
        subst hnew
        exact ⟨h0, h64, hother⟩
    · -- an initial voter is known from the start
      have hid := hmask hc id ((and_bitOf_ne_zero h0 h64).mp hno.2.1)
      rcases (member_initialVoters (hn.closed hc)).mp hid with hown | hin
      · exact absurd hown hother
      · exact absurd hin hno.2.2

theorem LiveAt.ensurePeer (hl : LiveAt K n M j h s) {mask : Word} (hmask : K.Within mask)
    {id : Nat} (h0 : 0 < id) (h64 : id ≤ 64) : LiveAt K n M j h (s.ensurePeer mask id) := by
  have hnamed := hl.named.ensurePeer hmask h0 h64
  unfold Node.ensurePeer at hnamed ⊢
  split at hnamed
  · rename_i hyes
    rw [if_pos hyes]
    exact hl
  · rename_i hno
    rw [if_neg hno]
    refine { hl with named := hnamed, role := ?_ }
    · have hrole := hl.role
      show RoleInv M h n (s.peers ++ [id]) s.state s.voteMask (Function.update s.matchIndex id 0)
      cases hstate : s.state with
      | follower => trivial
      | candidate => rw [hstate] at hrole; exact hrole
      | leader =>
        rw [hstate] at hrole
        refine ⟨hrole.1, hrole.2.1, fun ha p hp => ?_⟩
        by_cases hpid : p = id
        · simp [hpid]
        · rw [Function.update_of_ne hpid]
          rcases List.mem_append.mp hp with hold | hnew
          · exact hrole.2.2 ha p hold
          · exact absurd (List.mem_singleton.mp hnew) hpid

theorem foldl_keeps {β γ : Type} {p : β → Prop} {f : β → γ → β} {l : List γ}
    (hf : ∀ b, ∀ c ∈ l, p b → p (f b c)) {b : β} (hb : p b) : p (l.foldl f b) := by
  induction l generalizing b with
  | nil => exact hb
  | cons c l ih =>
    exact ih (fun b d hd => hf b d (List.mem_cons_of_mem c hd)) (hf b c List.mem_cons_self hb)

theorem mem_indexes {first last i : Nat} : i ∈ indexes first last ↔ first ≤ i ∧ i ≤ last := by
  unfold indexes
  rw [List.mem_range'_1]
  omega

theorem Named.ensurePeers (hn : Named K n s.id s.peers) {mask : Word} (hmask : K.Within mask) :
    Named K n (s.ensurePeers mask).id (s.ensurePeers mask).peers := by
  refine foldl_keeps (p := fun s : Node σ => Named K n s.id s.peers) ?_ hn
  intro s' id hid hn'
  obtain ⟨h0, h64⟩ := mem_indexes.mp hid
  exact hn'.ensurePeer hmask h0 h64

theorem LiveAt.ensurePeers (hl : LiveAt K n M j h s) {mask : Word} (hmask : K.Within mask) :
    LiveAt K n M j h (s.ensurePeers mask) := by
  refine foldl_keeps (p := fun s => LiveAt K n M j h s) ?_ hl
  intro s' id hid hl'
  obtain ⟨h0, h64⟩ := mem_indexes.mp hid
  exact hl'.ensurePeer hmask h0 h64

omit [LawfulStore σ] in
/-- `ensurePeers` only touches the peers and their indexes. -/
theorem ensurePeers_frame {β : Type} (f : Node σ → β)
    (hf : ∀ (s : Node σ) peers next matchIndex,
      f { s with peers := peers, next := next, matchIndex := matchIndex } = f s)
    (mask : Word) (s : Node σ) : f (s.ensurePeers mask) = f s := by
  refine foldl_keeps (p := fun s' => f s' = f s) ?_ rfl
  intro s' id _ hs'
  unfold Node.ensurePeer
  split
  · exact hs'
  · exact (hf s' _ _ _).trans hs'

omit [LawfulStore σ] in
@[simp] theorem ensurePeers_commit (mask : Word) (s : Node σ) :
    (s.ensurePeers mask).commit = s.commit := ensurePeers_frame _ (fun _ _ _ _ => rfl) mask s

/-! ## Committed configurations -/

section Programs

variable {Q : α → Hist K → Node σ → Prop} {g g' : Hist K}

theorem configAfter_take_succ (voters : Word) {x : List Entry} {i : Nat} {e : Entry}
    (he : x[i]? = some e) :
    configAfter voters (x.take (i + 1)) = configStep (configAfter voters (x.take i)) e := by
  rw [List.take_add_one, he]
  exact configAfter_concat

theorem LiveAt.isVoter_self {h : History Nat Entry} (hl : LiveAt K n M j h s) :
    ∃ b, s.isVoter s.id = .ok b := by
  rw [hl.named.own]
  exact hl.logged.view.isVoter_ok hl.named.voter.1 hl.named.voter.2.1

/-- One committed entry. -/
theorem wp_applyCommittedConfiguration {Q : Unit → Hist K → Node σ → Prop}
    (hl : LiveAt K n M j g.1 s) (hj : s.baseIndex ≤ j) (hlt : j < (g.1.log n).length)
    (hq : ∀ s' : Node σ, s'.commit = s.commit → s'.baseIndex = s.baseIndex →
      LiveAt K n M (j + 1) g.1 s' → Q ⟨⟩ g s') :
    NWp K n (applyCommittedConfiguration (j + 1)) Q g s := by
  have hget := List.getElem?_eq_getElem hlt
  obtain ⟨e, he⟩ : ∃ e, (g.1.log n)[j]? = some e := ⟨_, hget⟩
  refine Wp.bind (wp_ask (hl.down g.2)
    (fun _ => hl.logged.view.entryAt_ok (Nat.lt_succ_of_le hj) hlt) fun entry hentry => ?_)
  rw [hl.logged.view.entryAt (i := j + 1) (by omega) he] at hentry
  cases hentry
  have hstep := configAfter_take_succ K.voters he
  obtain ⟨_, hallow⟩ := (g.2.log_allowed (g.2.valid.log_sound n)).mem (List.mem_of_getElem? he)
  have hpend : M.pend → ∀ a, j + 1 < a → K.P.ConfAt (g.1.log n) a →
      s.pendingConfig ≠ 0 ∧ a ≤ s.pendingConfig :=
    fun hp a ha => hl.configured.2 hp a (by omega)
  -- the voters after the entry; the pending index is untouched so far
  have hinstall : NWp K n (installConfiguration e) (fun _ g' s' => g' = g ∧
      s'.commit = s.commit ∧ s'.baseIndex = s.baseIndex ∧ LiveAt K n M (j + 1) g.1 s') g s := by
    unfold installConfiguration
    unfold configStep at hstep
    cases hkind : e.kind with
    | jointConfig =>
      rw [hkind] at hstep
      refine Wp.bind (Wp.of_modify (Wp.of_modify ?_))
      have hl' : LiveAt K n M (j + 1) g.1
          { s with votersOld := e.oldVoters, votersNew := e.newVoters } :=
        { hl with configured := ⟨hstep, hpend⟩ }
      exact ⟨rfl, ensurePeers_frame _ (fun _ _ _ _ => rfl) _ _,
        ensurePeers_frame Node.baseIndex (fun _ _ _ _ => rfl) _ _,
        hl'.ensurePeers (hallow.1 (Or.inl hkind)).2⟩
    | finalConfig =>
      rw [hkind] at hstep
      have hl' : LiveAt K n M (j + 1) g.1 { s with votersOld := e.oldVoters, votersNew := 0 } :=
        { hl with configured := ⟨hstep, hpend⟩ }
      refine Wp.bind (Wp.of_modify (Wp.bind (wp_ask (hl'.down g.2)
        (fun _ => hl'.isVoter_self) fun b _ => ?_)))
      refine Wp.ite (fun _ => Wp.of_modify ?_) fun _ => Wp.of_pure ⟨rfl, rfl, rfl, hl'⟩
      -- a removed node steps down
      refine ⟨rfl, rfl, rfl, { hl' with role := trivial, read := ?_ }⟩
      exact { hl.read with
        leads := (nomatch ·)
        le := (nomatch ·)
        barrier := fun hf hc => by
          obtain ⟨h₀, hst, hlead, hacks, _⟩ := hl.read.barrier hf hc
          exact ⟨h₀, hst, hlead, hacks, (nomatch ·)⟩ }
    | normal =>
      rw [hkind] at hstep
      exact Wp.of_pure ⟨rfl, rfl, rfl, { hl with configured := ⟨hstep.trans hl.configured.1, hpend⟩ }⟩
    | noop =>
      rw [hkind] at hstep
      exact Wp.of_pure ⟨rfl, rfl, rfl, { hl with configured := ⟨hstep.trans hl.configured.1, hpend⟩ }⟩
    | other c =>
      rw [hkind] at hstep
      exact Wp.of_pure ⟨rfl, rfl, rfl, { hl with configured := ⟨hstep.trans hl.configured.1, hpend⟩ }⟩
  refine Wp.bind (hinstall.mono ?_)
  rintro _ g' s' ⟨rfl, hcommit, hbase, hl'⟩
  refine Wp.of_modify ?_
  split
  · rename_i hpending
    refine hq _ hcommit hbase { hl' with configured := ⟨hl'.configured.1, ?_⟩ }
    intro hp a ha hca
    have := (hl'.configured.2 hp a ha hca).2
    omega
  · exact hq _ hcommit hbase hl'

theorem wp_applyCommittedConfigurations {Q : Unit → Hist K → Node σ → Prop} {last : Nat}
    (hl : LiveAt K n M j g.1 s) (hj : s.baseIndex ≤ j) (hjl : j ≤ last)
    (hlast : last ≤ (g.1.log n).length)
    (hq : ∀ s' : Node σ, s'.commit = s.commit → LiveAt K n M last g.1 s' → Q ⟨⟩ g s') :
    NWp K n (applyCommittedConfigurations (j + 1) last) Q g s := by
  refine Wp.bind (Wp.of_get ?_)
  rw [if_neg (by omega)]
  unfold indexes
  refine (Wp.forM_range (I := fun i g' s' => g' = g ∧ s'.commit = s.commit ∧
    s'.baseIndex = s.baseIndex ∧ LiveAt K n M (i - 1) g.1 s') ?_ ?_).mono ?_
  · rintro i hi hi' g' s' ⟨rfl, hc, hb, hl'⟩
    obtain ⟨i, rfl⟩ : ∃ i', i = i' + 1 := ⟨i - 1, by omega⟩
    rw [Nat.add_sub_cancel] at hl'
    refine wp_applyCommittedConfiguration hl' (by omega) (by omega) ?_
    intro s'' hc' hb' hl''
    exact ⟨rfl, hc'.trans hc, hb'.trans hb, hl''⟩
  · exact ⟨rfl, rfl, rfl, hl⟩
  · rintro _ g' s' ⟨rfl, hc, _, hl'⟩
    rw [show j + 1 + (last + 1 - (j + 1)) - 1 = last by omega] at hl'
    exact hq s' hc hl'

/-! ## Moving the commit index -/

theorem wp_commitTo {Q : Bool → Hist K → Node σ → Prop} {i : Nat} (g' : Hist K)
    (hl : LiveAt K n M s.commit g.1 s) (hcand : s.state ≠ .candidate) (hi : s.commit ≤ i)
    (hr : Recommits g.1 g'.1 n i)
    (hok : ∀ s' : Node σ, s'.commit = i → LiveAt K n M i g'.1 s' → Q true g' s')
    (hdead : ∀ g' s', Dead K n g'.1 s' → Q false g' s') : NWp K n (commitTo i) Q g s := by
  refine Wp.bind (Wp.of_get (Wp.bind (wp_tryStore_dead g' (hl.down g.2)
    (fun _ => hl.settled g.2) (LawfulStore.saveHardState_atomic _ _) (Nat.le_refl _) ?_ hr.grows
    (hl.dur_recommit hr hi) ?_ ?_)))
  · exact fun hrel => (K.reliable_store hrel).saveHardState _ _ (hl.follows hi)
  · intro store hst
    have hl' := hl.recommit hcand hr hi hst
    refine Wp.bind (Wp.of_modify (Wp.bind ?_))
    refine wp_applyCommittedConfigurations hl' hl.base_le_commit hi ?_ ?_
    · rw [← hr.commit_eq]; exact g'.2.valid.commit_le n
    · intro s' hc hl''
      exact Wp.of_pure (hok s' hc hl'')
  · intro g'' s' hd
    exact Wp.of_pure (hdead g'' s' hd)

theorem wp_commitOwn {Q : Bool → Hist K → Node σ → Prop} (g' : Hist K)
    (hl : LiveAt K n M s.commit g.1 s) (hcand : s.state ≠ .candidate)
    (hi : s.commit ≤ s.lastIndex) (hr : Recommits g.1 g'.1 n s.lastIndex)
    (hok : ∀ s' : Node σ, s'.commit = s.lastIndex → LiveAt K n M s.lastIndex g'.1 s' →
      Q true g' s')
    (hdead : ∀ g' s', Dead K n g'.1 s' → Q false g' s') : NWp K n commitOwn Q g s := by
  have hno : ∀ {err}, (StableStore.saveHardState
      { term := s.term, votedFor := s.votedFor, commit := s.lastIndex } s.store).1 = some err →
      ¬ K.reliable := by
    intro err herr hrel
    rw [(K.reliable_store hrel).saveHardState _ _ (hl.follows hi)] at herr
    cases herr
  refine Wp.bind (Wp.of_get (Wp.bind (Wp.of_modify (Wp.bind ?_))))
  refine wp_tryStore g' (LawfulStore.saveHardState_atomic _ _) hr.grows ?_ ?_ ?_
  · intro store hst
    have hl' := hl.recommit hcand hr hi hst
    refine Wp.bind (wp_applyCommittedConfigurations hl' hl.base_le_commit hi ?_ ?_)
    · rw [← hr.commit_eq]; exact g'.2.valid.commit_le n
    · intro s' hc hl''
      exact Wp.of_pure (hok s' hc hl'')
  -- on an error the commit index goes back before the node is left stopped
  · intro store err hst herr
    have hdur : Dur K g'.1 n (LawfulStore.durable store) := by
      rw [hst]; exact hl.dur_recommit hr hi
    have hcov : (LawfulStore.durable s.store).snapshot.lastIndex ≤
        (LawfulStore.durable store).snapshot.lastIndex := by rw [hst]; exact Nat.le_refl _
    refine Wp.bind (Wp.of_modify (Wp.of_pure (hdead _ _ ?_)))
    exact dead_of_failed (hl.down g.2) (fun _ => hl.settled g.2) hcov hr.grows hdur (hno herr)
  · intro store err hst herr
    have hdur : Dur K g.1 n (LawfulStore.durable store) := by rw [hst]; exact hl.dur
    have hcov : (LawfulStore.durable s.store).snapshot.lastIndex ≤
        (LawfulStore.durable store).snapshot.lastIndex := by rw [hst]
    refine Wp.bind (Wp.of_modify (Wp.of_pure (hdead _ _ ?_)))
    exact dead_of_failed (hl.down g.2) (fun _ => hl.settled g.2) hcov (History.Grows.refl n g.1)
      hdur (hno herr)

end Programs

end Promtact.Raft
