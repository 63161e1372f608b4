import Promtact.Raft.Following

/-!
# Acknowledgements and read barriers

A leader counts acknowledgements of its own term: they commit entries, and they
confirm an active read barrier. For the barrier the acknowledgements have to be
newer than its start, which is what the context of a message stands for: a leader
of a later term would have taken one of the acknowledging voters away.
-/

namespace Promtact.Raft

open QuorumLog GhostState
open Node (indexes)
open Function (update)

variable {σ : Type} [LawfulStore σ] {K : Setting σ} {n : Nat}
variable {h h' : History Nat Entry} {s s' : Node σ} {M : Mode} {i j : Nat} {g g' : Hist K}
variable {m : Message}

/-! ## Committing by acknowledgements -/

omit [LawfulStore σ] in
/-- The peers whose match index has reached `i`. -/
theorem acked_members {own acked : Word} (peers : List Nat)
    (hf : peers.foldlM (fun acked p =>
      if s.matchIndex p ≥ i then return acked ||| (← nodeBit p) else return acked) own =
        .ok acked) {id : Nat} (hid : Member acked id) :
    Member own id ∨ id ∈ peers ∧ i ≤ s.matchIndex id := by
  induction peers generalizing own with
  | nil =>
    cases hf
    exact Or.inl hid
  | cons p peers ih =>
    rw [List.foldlM_cons] at hf
    by_cases hp : s.matchIndex p ≥ i
    · rw [if_pos hp] at hf
      cases hbit : nodeBit p with
      | error e =>
        rw [hbit] at hf
        cases hf
      | ok bit =>
        rw [hbit] at hf
        obtain ⟨h0, h64, rfl⟩ := range_of_nodeBit hbit
        rcases ih hf with hown | ⟨hmem, hle⟩
        · rcases member_or.mp hown with hown | hnew
          · exact Or.inl hown
          · rw [(member_bitOf h0 h64).mp hnew]
            exact Or.inr ⟨List.mem_cons_self, hp⟩
        · exact Or.inr ⟨List.mem_cons_of_mem p hmem, hle⟩
    · rw [if_neg hp] at hf
      rcases ih hf with hown | ⟨hmem, hle⟩
      · exact Or.inl hown
      · exact Or.inr ⟨List.mem_cons_of_mem p hmem, hle⟩

/-- An index that the acknowledgements commit. -/
def Committable (s : Node σ) (i : Nat) : Prop :=
  s.commit < i ∧ s.termAtMust i = .ok s.term ∧ ∃ own acked, nodeBit s.id = .ok own ∧
    s.canCommitIndex i acked = .ok true ∧
    ∀ id, Member acked id → Member own id ∨ id ∈ s.peers ∧ i ≤ s.matchIndex id

omit [LawfulStore σ] in
theorem committable_spec {k : Nat} (hk : s.committable k = .ok (some i)) :
    Committable s i ∧ i ≤ k := by
  induction k with
  | zero => cases hk
  | succ k ih =>
    have hrec : s.committable k = .ok (some i) → Committable s i ∧ i ≤ k + 1 := fun h =>
      ⟨(ih h).1, Nat.le_succ_of_le (ih h).2⟩
    rw [Node.committable] at hk
    by_cases hcommit : k + 1 ≤ s.commit
    · rw [if_pos hcommit] at hk
      cases hk
    rw [if_neg hcommit] at hk
    obtain ⟨t, hterm, hk⟩ := bind_eq_ok.mp hk
    by_cases ht : t ≠ s.term
    · rw [if_pos ht] at hk
      exact hrec hk
    rw [if_neg ht] at hk
    obtain ⟨own, hown, hk⟩ := bind_eq_ok.mp hk
    obtain ⟨acked, hacked, hk⟩ := bind_eq_ok.mp hk
    obtain ⟨b, hb, hk⟩ := bind_eq_ok.mp hk
    cases b with
    | false => exact hrec hk
    | true =>
      cases hk
      rw [not_not.mp ht] at hterm
      exact ⟨⟨by omega, hterm, own, acked, hown, hb, fun id hid => acked_members _ hacked hid⟩,
        Nat.le_refl _⟩

omit [LawfulStore σ] in
theorem acked_ok {peers : List Nat} (hp : ∀ p ∈ peers, 0 < p ∧ p ≤ 64) (own : Word) :
    ∃ acked, peers.foldlM (fun acked p =>
      if s.matchIndex p ≥ i then return acked ||| (← nodeBit p) else return acked) own =
        (.ok acked : Except Panic Word) := by
  induction peers generalizing own with
  | nil => exact ⟨own, rfl⟩
  | cons p peers ih =>
    have hrest := ih fun q hq => hp q (List.mem_cons_of_mem p hq)
    obtain ⟨h0, h64⟩ := hp p List.mem_cons_self
    rw [List.foldlM_cons]
    split
    · rw [nodeBit_of_range h0 h64]
      exact hrest _
    · exact hrest own

/-- The search for a committable index stays inside the log. -/
theorem LiveAt.committable_ok (hl : LiveAt K n M s.commit h s) {k : Nat}
    (hk : k ≤ (h.log n).length) : ∃ found, s.committable k = .ok found := by
  have hview := hl.logged.view
  have hbase := hl.base_le_commit
  induction k with
  | zero => exact ⟨none, rfl⟩
  | succ k ih =>
    rw [Node.committable]
    split
    · exact ⟨none, rfl⟩
    rename_i hlt
    refine bind_ok (hview.termAtMust (by omega) hk) ?_
    split
    · exact ih (by omega)
    obtain ⟨acked, hacked⟩ := acked_ok (s := s) (i := k + 1)
      (fun p hp => ⟨(hl.named.peer p hp).1, (hl.named.peer p hp).2.1⟩) (bitOf n)
    refine bind_ok hl.nodeBit (bind_ok hacked (bind_ok
      (hview.canCommitIndex hbase hl.configured.1 (by omega) hk acked) ?_))
    split
    · exact ⟨_, rfl⟩
    · exact ih (by omega)

theorem Committable.choose (hl : LiveAt K n .full s.commit h s) (hs : Sane K h)
    (hstate : s.state = .leader) (hc : Committable s i) (hi : i ≤ s.lastIndex) :
    ∃ h', Sane K h' ∧ Recommits h h' n i := by
  obtain ⟨hlt, hterm, own, acked, hown, hcan, hacked⟩ := hc
  have hview := hl.logged.view
  have hbase := hl.base_le_commit
  rw [hview.lastIndex] at hi
  rw [hview.termAtMust (by omega) hi] at hterm
  rw [hview.canCommitIndex hbase hl.configured.1 (Nat.le_of_lt hlt) hi] at hcan
  rw [hl.nodeBit] at hown
  cases hown
  have hrole := hl.role
  rw [hstate] at hrole
  obtain ⟨hreign, hlen, hacks⟩ := hrole
  refine hs.choose_own hreign (by rwa [hl.logged.commit_eq]) hi
    ((Except.ok.inj hterm).trans hl.voted.1.symm)
    (by rw [hl.logged.commit_eq]; exact Except.ok.inj hcan) ?_
  intro id hid
  obtain ⟨h0, h64, _⟩ := hl.named.voter
  rcases hacked id hid with hown | ⟨hmem, hle⟩
  · rw [(member_bitOf h0 h64).mp hown]
    exact Nat.le_trans hi hlen
  · exact Nat.le_trans hle (hacks trivial id hmem)

theorem wp_advanceCommit {Q : Bool → Hist K → Node σ → Prop}
    (hl : LiveAt K n .full s.commit g.1 s) (hstate : s.state = .leader)
    (hok : ∀ g' s', LiveAt K n .full s'.commit g'.1 s' → Q true g' s')
    (hdead : ∀ g' s', Dead K n g'.1 s' → Q false g' s') : NWp K n advanceCommit Q g s := by
  refine Wp.bind (Wp.of_get (Wp.bind (wp_ask (hl.down g.2)
    (fun _ => hl.committable_ok hl.logged.view.lastIndex.le) fun found hfound => ?_)))
  cases found with
  | none => exact Wp.of_pure (hok g s hl)
  | some i =>
    obtain ⟨hc, hi⟩ := committable_spec hfound
    obtain ⟨h₁, hs₁, hr⟩ := hc.choose hl g.2 hstate hi
    refine Wp.bind (wp_commitTo ⟨h₁, hs₁⟩ hl (by rw [hstate]; exact State.noConfusion)
      (Nat.le_of_lt hc.1) hr ?_ ?_)
    · intro s' hcommit hl'
      rw [← hcommit] at hl'
      refine Wp.bind (Wp.of_get (Wp.ite (fun hlead => ?_) fun _ => Wp.of_pure (hok _ s' hl')))
      refine Wp.bind (wp_broadcastAppend hl' trivial (hl'.reigns hlead) ?_)
      rintro _ ⟨_, _, rfl⟩ hl''
      exact Wp.of_pure (hok _ _ hl'')
    · intro g' s' hd
      exact Wp.of_pure (hdead g' s' hd)

/-! ## Match indexes -/

/-- An acknowledgement of the leader's term raises a match index. -/
theorem LiveAt.acknowledge (hl : LiveAt K n .full j h s) (p k : Nat)
    (hack : k ≤ h.ack p s.term) (next : Nat → Nat) :
    LiveAt K n .full j h { s with matchIndex := update s.matchIndex p k, next := next } := by
  refine { hl with role := ?_ }
  have hrole := hl.role
  show RoleInv _ h n s.peers s.state s.voteMask (update s.matchIndex p k)
  cases hstate : s.state with
  | follower => trivial
  | candidate => rw [hstate] at hrole; exact hrole
  | leader =>
    rw [hstate] at hrole
    refine ⟨hrole.1, hrole.2.1, fun ha q hq => ?_⟩
    by_cases hqp : q = p
    · rw [hqp, Function.update_self, hl.voted.1]
      exact hack
    · rw [Function.update_of_ne hqp]
      exact hrole.2.2 ha q hq

theorem wp_appendTo_good {p : Nat} (hl : LiveAt K n .full s.commit g.1 s)
    (hstate : s.state = .leader) (hp : p ≠ n) : NWp K n (appendTo p) (Ends K n) g s := by
  refine wp_appendTo hl trivial (hl.reigns hstate) hp ?_
  rintro _ ⟨_, _, rfl⟩ hl'
  exact Live.good hl'

theorem wp_onInstallSnapshotResponse (hl : LiveAt K n .full s.commit g.1 s)
    (hm : MsgInv K g.1 m) (htype : m.type = .installSnapshotResponse) (hto : m.toID = n) :
    NWp K n (onInstallSnapshotResponse m) (Ends K n) g s := by
  have hfrom : m.fromID ≠ n := by rw [← hto]; exact hm.other
  refine Wp.bind (Wp.of_get (Wp.ite (fun _ => Wp.of_pure (Live.good hl)) fun hno => ?_))
  simp only [Bool.or_eq_true, decide_eq_true_eq, not_or, not_not, ne_eq, Bool.not_eq_true] at hno
  obtain ⟨⟨hstate, hterm⟩, hreject⟩ := hno
  have hclaim := hm.claim
  unfold Claim at hclaim
  rw [htype] at hclaim
  have hack := hclaim hreject
  rw [hterm] at hack
  refine Wp.bind (wp_ask (hl.down g.2) (fun _ => hl.isVoter_sender hm) fun _ _ =>
    Wp.ite (fun _ => Wp.of_pure (Live.good hl)) fun _ => ?_)
  refine Wp.bind (Wp.of_modify (Wp.bind (Wp.of_get ?_)))
  obtain ⟨s₁, hs₁⟩ : ∃ s₁ : Node σ, s₁ = if m.matchIndex > s.matchIndex m.fromID then
      { s with
        matchIndex := update s.matchIndex m.fromID m.matchIndex
        next := update s.next m.fromID (m.matchIndex + 1) }
    else s := ⟨_, rfl⟩
  have hl₁ : LiveAt K n .full s₁.commit g.1 s₁ ∧ s₁.state = .leader := by
    rw [hs₁]; split
    · exact ⟨hl.acknowledge _ _ hack _, hstate⟩
    · exact ⟨hl, hstate⟩
  rw [← hs₁]
  refine Wp.ite (fun _ => ?_) fun _ => Wp.of_pure (Live.good hl₁.1)
  exact wp_appendTo_good hl₁.1 hl₁.2 hfrom

/-! ## Read barriers -/

/-- Quorums of logs without changes of voters meet. -/
theorem fixed_quorums_meet {voters : Word} {x y : List Entry} {S T : Set Nat}
    (hx : configAfter voters x = (voters, 0)) (hy : configAfter voters y = (voters, 0))
    (hS : (protocol voters).Quorum x S) (hT : (protocol voters).Quorum y T) :
    ∃ id, id ∈ S ∧ id ∈ T := by
  obtain ⟨w, hw, hwS⟩ := hS
  obtain ⟨w', hw', hwT⟩ := hT
  rw [show newest voters x = voters by simp [newest, hx]] at hw
  rw [show newest voters y = voters by simp [newest, hy]] at hw'
  obtain ⟨id, _, hid, hid'⟩ := majorityMask_inter hw hw'
  exact ⟨id, hwS id hid, hwT id hid'⟩

/-- The whole log is one of the prefixes a guard covers. -/
theorem effective_quorum {voters : Word} {x : List Entry} {k : Nat} {S : Set Nat}
    (hE : (protocol voters).Effective x k S) : (protocol voters).Quorum x S := by
  have h := hE x.length (Nat.le_refl _) (fun a ha hca => absurd hca.le_length (by omega))
  rwa [List.take_length] at h

/-- No voter of the majority `w` had left the term when the barrier started, so
that no later term had chosen anything by then. -/
theorem Sane.confirmed (hs : Sane K h) {c w : Word} {k : Nat} {h₀ : History Nat Entry}
    (hf : K.fresh) (hst : K.started n c = some h₀)
    (hw : Node.jointMajority (effective K.voters (h.log n) k) w = true)
    (hk : k ≤ (h.log n).length) (hmask : ∀ p, Member w p → h₀.term p ≤ h₀.term n)
    (hchosen : ∀ t i, h₀.chosen t i → t ≤ h₀.term n → i ≤ k) {t i : Nat}
    (hci : h₀.chosen t i) : i ≤ k := by
  rcases Nat.lt_or_ge (h₀.term n) t with hlt | hle
  · obtain ⟨hv₀, hno, _⟩ := hs.before n c h₀ hst
    have hfixed := K.fresh_fixed hf
    have hsound := hs.valid.log_sound n
    obtain ⟨r, hr, _⟩ := hv₀.chosen_spec hci
    have hstart : configAfter K.voters r.start = (K.voters, 0) := by
      refine foldl_configStep_of_not_config fun e he hce => ?_
      obtain ⟨_, hallow⟩ := (hno t r hr).mem ((hv₀.lead_start hr).subset he)
      exact hfixed (hallow.1 hce).1
    -- a voter of the majority elected the leader of the later term
    obtain ⟨id, hid, hid'⟩ := fixed_quorums_meet (hs.config_fixed hfixed hsound) hstart
      (effective_quorum (effective_of_majority (hs.log_wf hsound) hk hw))
      (effective_quorum (hv₀.lead_quorum hr))
    have h1 := hv₀.vote_term (hv₀.lead_votes hr id hid')
    have h2 := hmask id hid
    omega
  · exact hchosen t i hci hle

theorem wp_confirmRead {Q : Unit → Hist K → Node σ → Prop}
    (hl : LiveAt K n .full s.commit g.1 s) (hm : MsgInv K g.1 m)
    (htype : m.type = .appendResponse) (hto : m.toID = n)
    (hq : ∀ s', LiveAt K n .full s'.commit g.1 s' → Q ⟨⟩ g s') :
    NWp K n (confirmRead m) Q g s := by
  refine Wp.bind (Wp.of_get (Wp.ite (fun hyes => ?_) fun _ => Wp.of_pure (hq s hl)))
  simp only [Bool.and_eq_true, decide_eq_true_eq, Bool.not_eq_true', ne_eq] at hyes
  obtain ⟨⟨⟨⟨hstate, hterm⟩, hreject⟩, hctx⟩, hsame⟩ := hyes
  refine Wp.bind (wp_ask (hl.down g.2) (fun _ => hl.isVoter_sender hm) fun voter _ =>
    Wp.ite (fun _ => ?_) fun _ => Wp.of_pure (hq s hl))
  refine Wp.bind (wp_ask (hl.down g.2) (fun _ => ⟨_, hm.nodeBit⟩) fun bit hbit =>
    Wp.bind (Wp.of_modify ?_))
  obtain ⟨h0, h64, rfl⟩ := range_of_nodeBit hbit
  have hclaim := hm.claim
  unfold Claim at hclaim
  rw [htype] at hclaim
  obtain ⟨_, hack⟩ := hclaim hreject
  unfold AckContext at hack
  rw [hto, hterm, ← hl.voted.1, hsame] at hack
  have hl₁ : LiveAt K n .full s.commit g.1
      { s with readAckMask := s.readAckMask ||| bitOf m.fromID } := by
    refine { hl with read := { hl.read with barrier := fun hf hc => ?_ } }
    obtain ⟨h₀, hst, hlead, hacks, hready⟩ := hl.read.barrier hf hc
    obtain ⟨_, hst', hown, hfrom⟩ := hack hf hc
    rw [hst] at hst'
    cases hst'
    refine ⟨h₀, hst, hlead, fun ht => ⟨(hacks ht).1, fun p hp => ?_⟩, hready⟩
    rcases member_or.mp hp with hold | hnew
    · exact (hacks ht).2 p hold
    · rw [(member_bitOf h0 h64).mp hnew, hown]
      exact hfrom
  refine Wp.bind (wp_ask (hl₁.down g.2) (fun _ => ⟨_, hl₁.quorumMask _⟩) fun b hb =>
    Wp.ite (fun hyes => Wp.of_modify (hq _ ?_)) fun _ => Wp.of_pure (hq _ hl₁))
  subst hyes
  rw [hl₁.quorumMask] at hb
  have hcommit := hl.logged.commit_eq
  refine { hl₁ with read := {
    leads := fun _ => hstate
    le := fun _ => Nat.le_of_eq hcommit.symm
    barrier := fun hf hc => ?_ } }
  obtain ⟨h₀, hst, hlead, hacks, _⟩ := hl₁.read.barrier hf hc
  refine ⟨h₀, hst, hlead, hacks, fun _ t i hci => ?_⟩
  obtain ⟨_, hst', hown, _⟩ := hack hf hc
  rw [hst] at hst'
  cases hst'
  obtain ⟨hchosen, hmask⟩ := hacks hown
  rw [hcommit] at hchosen
  exact g.2.confirmed hf hst (Except.ok.inj hb)
    (by rw [← hcommit]; exact g.2.valid.commit_le n) hmask hchosen hci

theorem wp_onAppendResponse (hl : LiveAt K n .full s.commit g.1 s) (hm : MsgInv K g.1 m)
    (htype : m.type = .appendResponse) (hto : m.toID = n) :
    NWp K n (onAppendResponse m) (Ends K n) g s := by
  have hfrom : m.fromID ≠ n := by rw [← hto]; exact hm.other
  refine Wp.bind (wp_confirmRead hl hm htype hto fun s₁ hl₁ => ?_)
  refine Wp.bind (Wp.of_get (Wp.ite (fun _ => Wp.of_pure (Live.good hl₁)) fun hno => ?_))
  simp only [Bool.or_eq_true, decide_eq_true_eq, not_or, not_not, ne_eq] at hno
  obtain ⟨⟨hstate, hterm⟩, _⟩ := hno
  refine Wp.ite (fun _ => ?_) fun hreject => ?_
  · -- the follower's log does not match yet
    refine Wp.bind (Wp.of_modify ?_)
    split
    · have hl₂ : LiveAt K n .full s₁.commit g.1 { s₁ with
          next := update s₁.next m.fromID (s₁.next m.fromID - 1) } := { hl₁ with }
      exact wp_appendTo_good hl₂ hstate hfrom
    · exact wp_appendTo_good hl₁ hstate hfrom
  · have hclaim := hm.claim
    unfold Claim at hclaim
    rw [htype] at hclaim
    have hack := (hclaim (by simpa using hreject)).1
    rw [hterm] at hack
    have hl₂ := hl₁.acknowledge _ _ hack (update s₁.next m.fromID (m.matchIndex + 1))
    refine Wp.bind (Wp.of_modify (Wp.bind (wp_advanceCommit hl₂ hstate ?_ ?_)))
    · intro g' s' hl'
      refine Wp.bind (Wp.of_get (Wp.ite (fun _ => Wp.of_pure (Live.good hl')) fun hlead => ?_))
      refine Wp.ite (fun _ => ?_) fun _ => Wp.of_pure (Live.good hl')
      exact wp_appendTo_good hl' (not_not.mp hlead) hfrom
    · intro g' s' hd
      exact Wp.of_pure (Or.inr hd)

omit [LawfulStore σ] in
theorem mayRead_spec {c : Word} (hr : s.mayRead c = .ok true) :
    s.state = .leader ∧ c ≠ 0 ∧ (s.termAtMust s.commit = .ok s.term ∨
      ∃ own, nodeBit s.id = .ok own ∧ s.quorumMask own = .ok true) := by
  unfold Node.mayRead at hr
  split at hr
  · cases hr
  · rename_i hno
    simp only [Bool.or_eq_true, decide_eq_true_eq, not_or, not_not, ne_eq] at hno
    refine ⟨hno.1.1.1, hno.1.2, ?_⟩
    obtain ⟨t, ht, hr⟩ := bind_eq_ok.mp hr
    split at hr
    · rename_i heq
      exact Or.inl (by rw [ht, heq])
    · obtain ⟨own, hown, hr⟩ := bind_eq_ok.mp hr
      exact Or.inr ⟨own, hown, hr⟩

/-- The code's quorum test with fixed voters. -/
theorem LiveAt.quorum_fixed (hl : LiveAt K n M s.commit h s) (hs : Sane K h) (hf : ¬ K.reconf)
    {w : Word} (hq : s.quorumMask w = .ok true) : majorityMask K.voters w = true := by
  rw [hl.quorumMask] at hq
  have hsound := hs.valid.log_sound n
  have hle : s.commit ≤ (h.log n).length := by
    rw [← hl.logged.commit_eq]; exact hs.valid.commit_le n
  have hnewest : newest K.voters (h.log n) = K.voters := by
    simp [newest, hs.config_fixed hf hsound]
  have hno : (protocol K.voters).OneTail (h.log n) (h.log n).length s.commit :=
    fun a ha hca => absurd hca.le_length (by omega)
  have hmaj := Except.ok.inj hq
  simp only [Node.jointMajority, Bool.and_eq_true, Bool.or_eq_true, decide_eq_true_eq] at hmaj
  have hcases := newest_effective (hs.log_wf hsound) hle (Nat.le_refl _) hno
  rw [List.take_length, hnewest] at hcases
  rcases hcases with heq | ⟨hne, heq⟩
  · rw [heq]; exact hmaj.1
  · rw [heq]; exact hmaj.2.resolve_left hne

/-- A leader that may serve a barrier knows everything chosen up to its term. -/
theorem LiveAt.knows_chosen (hl : LiveAt K n M s.commit h s) (hs : Sane K h)
    (hf : ¬ K.reconf) {c : Word} (hmay : s.mayRead c = .ok true) {t i : Nat}
    (hci : h.chosen t i) (ht : t ≤ h.term n) : i ≤ h.commit n := by
  obtain ⟨hstate, _, hcase⟩ := mayRead_spec hmay
  obtain ⟨r, hr, hwho, hlog⟩ := (hl.reigns hstate).log hs
  obtain ⟨q, hq, h0, hi, hti, _⟩ := hs.valid.chosen_spec hci
  rcases hcase with hterm | ⟨own, hown, hquorum⟩
  · -- an entry of the leader's own term is committed
    have hcle : s.commit ≤ (h.log n).length := by
      rw [← hl.logged.commit_eq]; exact hs.valid.commit_le n
    rw [hl.logged.view.termAtMust hl.base_le_commit hcle, ← hl.voted.1, ← hlog] at hterm
    rcases Nat.eq_or_lt_of_le ht with rfl | hlt
    · rw [← hwho]
      exact hs.valid.lead_commit hr hci
    · by_contra hgt
      have hheld := hs.valid.lead_holds hr hq hci ht
      have hmono := hs.valid.lead_mono _ hr (a := s.commit) (b := i)
        (by rw [← hl.logged.commit_eq]; omega) (le_length_of_takes hheld hi)
      rw [Except.ok.inj hterm, Protocol.termAt_eq_of_take (take_eq_of_takes hheld hi)
        (Nat.le_refl i), hti] at hmono
      omega
  · -- the leader is the only voter, so that it led every term
    rw [hl.nodeBit] at hown
    cases hown
    have hsole := sole_voter hl.named.voter.1 hl.named.voter.2.1
      (hl.quorum_fixed hs hf hquorum) (hs.voter t q hq)
    rw [← hsole]
    exact hs.valid.lead_commit hq hci

/-- A barrier that has started, and is confirmed at once when the leader is a
quorum by itself. -/
theorem LiveAt.startRead (hl : LiveAt K n .full s.commit h s) (hs : Sane K h) {c : Word}
    (hmay : s.mayRead c = .ok true) (hstart : K.fresh → K.started n c = some h) {ready : Bool}
    (hready : s.quorumMask (bitOf n) = .ok ready) :
    LiveAt K n .full s.commit h { s with
      readContext := c, readAckMask := bitOf n, readReady := ready
      readIndex := if ready then s.commit else s.readIndex } := by
  obtain ⟨hstate, _, _⟩ := mayRead_spec hmay
  have hcommit := hl.logged.commit_eq
  have hmask : ∀ p, Member (bitOf n) p → h.term p ≤ h.term n := by
    intro p hp
    rw [(member_bitOf hl.named.voter.1 hl.named.voter.2.1).mp hp]
  rw [hl.quorumMask] at hready
  have hquorum := Except.ok.inj hready
  refine { hl with read := { leads := fun _ => hstate, le := ?_, barrier := fun hf _ => ?_ } }
  · intro hr
    rw [if_pos hr, hcommit]
  · have hchosen : ∀ t i, h.chosen t i → t ≤ h.term n → i ≤ h.commit n :=
      fun t i hci ht => hl.knows_chosen hs (K.fresh_fixed hf) hmay hci ht
    refine ⟨h, hstart hf, hl.reigns hstate, fun _ => ⟨hchosen, hmask⟩, fun hr t i hci => ?_⟩
    rw [if_pos hr]
    rw [hcommit] at hchosen
    exact hs.confirmed hf (hstart hf) (hquorum.trans hr)
      (by rw [← hcommit]; exact hs.valid.commit_le n) hmask hchosen hci

theorem Good.down (hs : Sane K h) (hg : Good K n h s) : Down K n h s :=
  hg.elim (LiveAt.down hs) (·.toDown)

theorem Good.mayRead_ok (hs : Sane K h) (hg : Good K n h s) (c : Word) :
    ∃ b, s.mayRead c = .ok b := by
  unfold Node.mayRead
  split
  · exact ⟨false, rfl⟩
  · rename_i hno
    simp only [Bool.or_eq_true, decide_eq_true_eq, not_or, not_not, ne_eq] at hno
    have hl := hg.live hno.1.1.1
    have hcle : s.commit ≤ (h.log n).length := by
      rw [← hl.logged.commit_eq]; exact hs.valid.commit_le n
    refine bind_ok (hl.logged.view.termAtMust hl.base_le_commit hcle) ?_
    split
    · exact ⟨true, rfl⟩
    · exact bind_ok hl.nodeBit ⟨_, hl.quorumMask _⟩

theorem wp_startReadIndex {c : Word} (hg : Good K n g.1 s)
    (hstart : K.fresh → K.started n c = some g.1) :
    NWp K n (startReadIndex c) (Ends K n) g s := by
  have hdown := hg.down g.2
  refine Wp.bind (wp_ask hdown (fun _ => hg.mayRead_ok g.2 c) fun may hmay =>
    Wp.ite (fun _ => Wp.of_pure hg) fun hyes => ?_)
  have hmay' : s.mayRead c = .ok true := by
    rw [hmay]
    simpa using hyes
  obtain ⟨hstate, _, _⟩ := mayRead_spec hmay'
  have hl := hg.live hstate
  have hreign := hl.reigns hstate
  refine Wp.bind (wp_ask hdown (fun _ => ⟨_, hl.nodeBit⟩) fun own hown => ?_)
  rw [hl.nodeBit] at hown
  cases hown
  refine Wp.bind (Wp.of_modify (Wp.bind ?_))
  -- in between the old confirmation stands next to the new context
  refine wp_ask ?_ (fun _ => ⟨_, hl.quorumMask _⟩) fun ready hready => Wp.bind (Wp.of_modify (Wp.bind (Wp.of_get ?_)))
  · exact { own := hdown.own, past := hdown.past, commit_le := hdown.commit_le,
            running := hdown.running, dur := hdown.dur }
  have hl₁ := hl.startRead g.2 hmay' hstart hready
  refine Wp.bind (wp_peers ?_ hl₁ ?_)
  · intro p hp s' hf hl'
    exact wp_appendToContext hl' trivial hreign (hl₁.named.peer p hp).2.2
      (fun hfresh _ => ⟨g.1, hstart hfresh, rfl⟩) fun s'' hf' hl'' => ⟨rfl, hf.trans hf', hl''⟩
  · rintro _ ⟨_, _, rfl⟩ hl'
    exact Wp.of_pure (Live.good hl')

end Promtact.Raft
