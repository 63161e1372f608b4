import Promtact.Raft.Voting

/-!
# Following a leader

An append that passes the checks of `onAppend` takes a prefix of the leader's log
over: the part both logs hold stays, a conflicting suffix goes, and the entry of
the message is stored. `Accepts` is that step of the history. The commit index
then follows the leader's, as far as the message confirms the log.
-/

namespace Promtact.Raft

open QuorumLog GhostState
open Node (indexes)

variable {σ : Type} [LawfulStore σ] {K : Setting σ} {n : Nat}
variable {h h' : History Nat Entry} {s s' : Node σ} {M : Mode} {i j : Nat} {g g' : Hist K}
variable {m : Message} {r : Reign Nat Entry} {z : List Entry}

/-! ## The step of the history -/

/-- Node `n` took over `z` from its leader and acknowledged it. -/
structure Accepts (h h' : History Nat Entry) (n : Nat) (z : List Entry) : Prop where
  grows : History.Grows n h h'
  log_eq : h'.log n = History.adopt z (h.log n)
  term_eq : h'.term n = h.term n
  vote_eq : h'.vote n = h.vote n
  commit_eq : h'.commit n = h.commit n
  ack_le : z.length ≤ h'.ack n (h.term n)

theorem Sane.accept_own (hs : Sane K h) (hr : h.lead (h.term n) = some r) (hz : z <+: r.log) :
    ∃ h', Sane K h' ∧ Accepts h h' n z := by
  have htake : r.log.take z.length = z := by
    rw [take_eq_of_pre hz (Nat.le_refl _), List.take_length]
  have h₁ := hs.accept hr hz
  have hpre : r.log.take z.length <+:
      (h.relog n (History.adopt z (h.log n))).log n := by
    rw [htake]
    simpa [History.relog] using History.pre_adopt z (h.log n)
  have h₂ := h₁.raise (n := n) hr hz.length_le hpre
  refine ⟨_, h₂, ?_⟩
  exact {
    grows := (History.grows_relog _).trans (History.grows_raise _)
    log_eq := by simp [History.raise, History.relog]
    term_eq := rfl
    vote_eq := rfl
    commit_eq := rfl
    ack_le := by simp [History.raise, History.relog] }

/-- The log of the node holds the prefix already. -/
theorem LiveAt.accept (hl : LiveAt K n M j h s) (hstate : s.state = .follower)
    (ha : Accepts h h' n z) (hz : z <+: h.log n) : LiveAt K n M j h' s := by
  have hlog : h'.log n = h.log n := ha.log_eq.trans (History.adopt_of_pre hz)
  refine { hl with
    voted := ?_
    logged := by rw [hlog, ha.commit_eq]; exact hl.logged
    configured := by rw [hlog]; exact hl.configured
    single := by rw [hlog, ha.commit_eq]; exact hl.single
    role := by rw [hstate]; trivial
    read := hl.read.advance ha.grows ha.term_eq
    out := fun m hm => (hl.out m hm).grow ha.grows
    dur := ?_ }
  · unfold Voted
    rw [ha.term_eq, ha.vote_eq]
    exact hl.voted
  · refine {
      voted := ?_
      view := by rw [hlog]; exact hl.dur.view
      commit_eq := by rw [ha.commit_eq]; exact hl.dur.commit_eq
      base_le := hl.dur.base_le
      snapshot := hl.dur.snapshot.imp_right fun hf => hf.grow ha.grows
      single := by rw [hlog, ha.commit_eq]; exact hl.dur.single
      reach := by rw [hlog]; exact hl.dur.reach }
    unfold Voted
    rw [ha.term_eq, ha.vote_eq]
    exact hl.dur.voted

/-! ## Cutting the log -/

/-- The memory of the node is cut behind index `i`, ahead of its store; the
pending change is known up to `k`. -/
structure Cut (K : Setting σ) (n : Nat) (x : List Entry) (i k : Nat) (s s' : Node σ) : Prop where
  frame : ∃ peers next matchIndex pending, s' = { s with
    log := s.log.take (i + 1 - s.baseIndex), peers := peers, next := next
    matchIndex := matchIndex, pendingConfig := pending }
  named : Named K n s'.id s'.peers
  pend : ∀ a, s.commit < a → a ≤ k → K.P.ConfAt (x.take i) a →
    s'.pendingConfig ≠ 0 ∧ a ≤ s'.pendingConfig

namespace Cut

variable {x : List Entry} {k : Nat}

theorem view (hc : Cut K n (h.log n) i k s s') (hl : LiveAt K n M j h s) (hi : s.baseIndex ≤ i) :
    View K.voters ((h.log n).take i) s'.baseIndex s'.log := by
  obtain ⟨_, _, _, _, hs'⟩ := hc.frame
  rw [hs', show i + 1 - s.baseIndex = i - s.baseIndex + 1 by omega]
  exact hl.logged.view.take hi

theorem down (hc : Cut K n (h.log n) i k s s') (hs : Sane K h) (hl : LiveAt K n M j h s)
    (hi : s.baseIndex ≤ i) (hi' : i ≤ (h.log n).length) (hcommit : s.commit ≤ i) :
    Down K n h s' := by
  have hview := hc.view hl hi
  obtain ⟨_, _, _, _, rfl⟩ := hc.frame
  refine {
    own := ⟨hl.named.own, hl.named.voter⟩
    past := ⟨(h.log n).take i, hview, (hs.valid.log_sound n).take i, hl.logged.base_le,
      hl.logged.applied_le, ?_, ?_⟩
    commit_le := (hl.down hs).commit_le
    running := fun _ => hl.running
    dur := hl.dur }
  · rw [List.length_take]
    exact Nat.le_min.mpr ⟨hcommit, Nat.le_trans hcommit hi'⟩
  · have hcom := hs.valid.commit_committed n
    rw [hl.logged.commit_eq] at hcom
    rwa [take_take_of_le hcommit]

theorem settled (hc : Cut K n (h.log n) i k s s') (hs : Sane K h)
    (hl : LiveAt K n M s.commit h s) (hi : s.baseIndex ≤ i) (hi' : i ≤ (h.log n).length)
    (hcommit : s.commit ≤ i) : s'.Settled K h n := by
  have hview := hc.view hl hi
  obtain ⟨hcov, _⟩ := hl.settled hs
  obtain ⟨_, _, _, _, rfl⟩ := hc.frame
  refine ⟨hcov, (h.log n).take i, hview, (hs.valid.log_sound n).take i, hl.logged.base_le,
    hl.logged.applied_le, ?_, ?_, ?_⟩
  · rw [List.length_take]
    exact Nat.le_min.mpr ⟨hcommit, Nat.le_trans hcommit hi'⟩
  · have hcom := hs.valid.commit_committed n
    rw [hl.logged.commit_eq] at hcom
    rwa [take_take_of_le hcommit]
  · rw [take_take_of_le hcommit]
    exact hl.configured.1

/-- Nothing has to be cut at the end of the log. -/
theorem of_end (hl : LiveAt K n .full s.commit h s) (hi : i = (h.log n).length) :
    Cut K n (h.log n) i i s s := by
  have hlen := hl.logged.view.length
  have hbase := hl.logged.view.1
  have htake : s.log.take (i + 1 - s.baseIndex) = s.log :=
    List.take_of_length_le (by omega)
  refine ⟨⟨s.peers, s.next, s.matchIndex, s.pendingConfig, by rw [htake]⟩, hl.named, ?_⟩
  intro a ha _ hca
  rw [hi, List.take_length] at hca
  exact hl.configured.2 trivial a ha hca

end Cut

omit [LawfulStore σ] in
theorem ensurePeers_eq (mask : Word) (s : Node σ) :
    ∃ peers next matchIndex, s.ensurePeers mask =
      { s with peers := peers, next := next, matchIndex := matchIndex } := by
  refine foldl_keeps (p := fun s' : Node σ => ∃ peers next matchIndex, s' =
    { s with peers := peers, next := next, matchIndex := matchIndex }) ?_ ⟨_, _, _, rfl⟩
  rintro s' id _ ⟨peers, next, matchIndex, rfl⟩
  unfold Node.ensurePeer
  split
  · exact ⟨_, _, _, rfl⟩
  · exact ⟨_, _, _, rfl⟩

/-- One entry of `rebuildPendingConfig`. -/
theorem Cut.next {x : List Entry} {k : Nat} (hc : Cut K n x i k s s') {mask : Word}
    (hmask : K.Within mask) : Cut K n x i (k + 1) s
      (Node.ensurePeers mask { s' with pendingConfig := k + 1 }) := by
  obtain ⟨peers, next, matchIndex, pending, rfl⟩ := hc.frame
  obtain ⟨peers', next', matchIndex', heq⟩ := ensurePeers_eq mask { s with
    log := s.log.take (i + 1 - s.baseIndex), peers := peers, next := next
    matchIndex := matchIndex, pendingConfig := k + 1 }
  have hnamed := Named.ensurePeers (s := { s with
    log := s.log.take (i + 1 - s.baseIndex), peers := peers, next := next
    matchIndex := matchIndex, pendingConfig := k + 1 }) hc.named hmask
  refine ⟨⟨_, _, _, _, heq⟩, hnamed, fun a _ ha _ => ?_⟩
  rw [heq]
  exact ⟨Nat.succ_ne_zero k, ha⟩

theorem Cut.skip {x : List Entry} {k : Nat} {e : Entry} (hc : Cut K n x i k s s') (hk : k < i)
    (he : x[k]? = some e) (hconf : ¬ IsConfig e) : Cut K n x i (k + 1) s s' := by
  refine { hc with pend := fun a ha hak hca => ?_ }
  rcases Nat.lt_or_ge k a with hlt | hle
  · obtain rfl : a = k + 1 := by omega
    obtain ⟨e', he', hce'⟩ := hca
    rw [List.getElem?_take_of_lt hk, he] at he'
    cases he'
    exact absurd hce' hconf
  · exact hc.pend a ha hle hca

/-- The pending change is found again in what is left of the log. -/
theorem wp_rebuildPendingConfig {Q : Unit → Hist K → Node σ → Prop}
    (hl : LiveAt K n .full s.commit g.1 s) (hi : s.baseIndex ≤ i) (hi' : i ≤ (g.1.log n).length)
    (hcommit : s.commit ≤ i)
    (hq : ∀ s', Cut K n (g.1.log n) i i s s' → Q ⟨⟩ g s') :
    NWp K n rebuildPendingConfig Q g { s with log := s.log.take (i + 1 - s.baseIndex) } := by
  obtain ⟨s₁, hs₁⟩ : ∃ s₁ : Node σ, s₁ =
      { s with log := s.log.take (i + 1 - s.baseIndex), pendingConfig := 0 } := ⟨_, rfl⟩
  have hcut : Cut K n (g.1.log n) i s.commit s s₁ := by
    refine ⟨⟨s.peers, s.next, s.matchIndex, 0, hs₁⟩, by rw [hs₁]; exact hl.named, ?_⟩
    intro a ha ha'
    omega
  have hlast : s₁.lastIndex = i := by
    rw [(hcut.view hl hi).lastIndex, List.length_take]
    omega
  have hfirst : max (s₁.commit + 1) (s₁.baseIndex + 1) = s.commit + 1 := by
    have := hl.base_le_commit
    rw [hs₁]
    show max (s.commit + 1) (s.baseIndex + 1) = _
    omega
  refine Wp.bind (Wp.of_modify (Wp.bind (Wp.of_get ?_)))
  show NWp K n _ Q g { s with log := s.log.take (i + 1 - s.baseIndex), pendingConfig := 0 }
  rw [← hs₁, hfirst, hlast]
  unfold indexes
  refine (Wp.forM_range (I := fun k g' s' => g' = g ∧ Cut K n (g.1.log n) i (k - 1) s s') ?_
    (show g = g ∧ Cut K n (g.1.log n) i (s.commit + 1 - 1) s s₁ from ⟨rfl, hcut⟩)).mono ?_
  · rintro k hk hk' g' s' ⟨rfl, hc⟩
    obtain ⟨k, rfl⟩ : ∃ k', k = k' + 1 := ⟨k - 1, by omega⟩
    rw [Nat.add_sub_cancel] at hc
    have hki : k < i := by omega
    have hbase := hl.base_le_commit
    obtain ⟨e, he⟩ : ∃ e, (g'.1.log n)[k]? = some e :=
      ⟨_, List.getElem?_eq_getElem (by omega)⟩
    have hview := hc.view hl hi
    have hbase' : s'.baseIndex = s.baseIndex := by
      obtain ⟨_, _, _, _, hs'⟩ := hc.frame
      rw [hs']
    have hat := hview.entryAt (i := k + 1) (by omega)
      (by rw [Nat.add_sub_cancel, List.getElem?_take_of_lt hki]; exact he)
    refine Wp.bind (wp_ask (hc.down g'.2 hl hi hi' hcommit) (fun _ => ⟨_, hat⟩)
      fun entry hentry => ?_)
    rw [hat] at hentry
    cases hentry
    rw [Nat.add_sub_cancel]
    refine Wp.ite (fun hconf => ?_) fun hconf => ?_
    · obtain ⟨_, hallow⟩ := (g'.2.log_allowed (g'.2.valid.log_sound n)).mem
        (List.mem_of_getElem? he)
      exact Wp.bind (Wp.of_modify (Wp.of_modify
        ⟨rfl, hc.next (hallow.1 (isConfig_iff.mp hconf)).2⟩))
    · exact Wp.of_pure ⟨rfl, hc.skip hki he (fun h => hconf (isConfig_iff.mpr h))⟩
  · rintro _ g' s' ⟨rfl, hc⟩
    rw [show s.commit + 1 + (i + 1 - (s.commit + 1)) - 1 = i by omega] at hc
    exact hq s' hc

/-- Afterwards the entry is present, or the log ends in front of its index. -/
theorem wp_truncateConflict {Q : Unit → Hist K → Node σ → Prop} {t : Nat}
    (hl : LiveAt K n .full s.commit g.1 s) (hi : s.baseIndex ≤ i) (hi' : i ≤ (g.1.log n).length)
    (hcommit : i < (g.1.log n).length → K.P.termAt (g.1.log n) (i + 1) ≠ t → s.commit ≤ i)
    (hsame : i < (g.1.log n).length → K.P.termAt (g.1.log n) (i + 1) = t → Q ⟨⟩ g s)
    (hcut : ∀ s', (i < (g.1.log n).length → K.P.termAt (g.1.log n) (i + 1) ≠ t) →
      Cut K n (g.1.log n) i i s s' → Q ⟨⟩ g s') :
    NWp K n (truncateConflict (i + 1) t) Q g s := by
  have hview := hl.logged.view
  refine Wp.bind (Wp.of_get ?_)
  rcases Nat.lt_or_ge i (g.1.log n).length with hlt | hge
  · rw [hview.termAt (i := i + 1) (by omega) hlt]
    refine Wp.ite (fun hne => ?_) fun heq => Wp.of_pure (hsame hlt (not_not.mp heq))
    exact Wp.bind (Wp.of_modify (wp_rebuildPendingConfig hl hi hi' (hcommit hlt hne)
      fun s' hc => hcut s' (fun _ => hne) hc))
  · have hend : i = (g.1.log n).length := by omega
    have hnone : s.termAt (i + 1) = none := by
      cases ht : s.termAt (i + 1) with
      | none => rfl
      | some u => have := (hview.termAt_eq_some.mp ht).2.1; omega
    rw [hnone]
    exact Wp.of_pure (hcut s (fun hlt => absurd hlt (by omega)) (Cut.of_end hl hend))

/-! ## Storing the entry -/

/-- The prefix of the leader's log that the message confirms. -/
theorem AppendInv.prefix_eq (ha : AppendInv K h m r) {x : List Entry} (he : m.hasEntry = true)
    (hx : x.take m.logIndex = r.log.take m.logIndex) :
    r.log.take (m.logIndex + 1) = x.take m.logIndex ++ [m.entry] := by
  rw [List.take_add_one, ha.entry_eq he, hx]
  rfl

/-- A prefix with another entry at its end is not a prefix of the log. -/
theorem not_pre_of_conflict {x : List Entry} {e : Entry} (hi : i ≤ x.length)
    (hne : i < x.length → K.P.termAt x (i + 1) ≠ e.term) : ¬ x.take i ++ [e] <+: x := by
  intro hp
  have hlen : (x.take i).length = i := by simp [hi]
  have hlt : i < x.length := by
    have := hp.length_le
    simp only [List.length_append, hlen, List.length_singleton] at this
    omega
  refine hne hlt ?_
  have he : (x.take i ++ [e])[i]? = some e := by
    rw [List.getElem?_append_right (by omega), hlen]
    simp
  rw [Protocol.termAt_succ, getElem?_of_pre hp he]
  rfl

/-- The store after an accepted entry. -/
theorem LiveAt.dur_accept (hl : LiveAt K n M j h s) {e : Entry}
    (ha : Accepts h h' n ((h.log n).take i ++ [e])) (hi : s.baseIndex ≤ i)
    (hi' : i ≤ (h.log n).length) (hno : ¬ (h.log n).take i ++ [e] <+: h.log n)
    (halone : K.neat → IsConfig e → ∀ a ≤ i, K.P.ConfAt (h.log n) a → a ≤ h.commit n) :
    Dur K h' n ((LawfulStore.durable s.store).append (i + 1) e) := by
  have hlog : h'.log n = (h.log n).take i ++ [e] := ha.log_eq.trans (History.adopt_of_not_pre hno)
  refine {
    voted := ?_
    view := ?_
    commit_eq := by rw [ha.commit_eq]; exact hl.dur.commit_eq
    base_le := hl.dur.base_le
    snapshot := hl.dur.snapshot.imp_right fun hf => hf.grow ha.grows
    single := fun hn => by
      rw [hlog, ha.commit_eq]
      exact (hl.dur.single hn).replace hi' (halone hn)
    reach := fun _ => ?_ }
  · unfold Voted
    rw [ha.term_eq, ha.vote_eq]
    exact hl.dur.voted
  · rw [hl.synced.1] at hi
    unfold Durable.append
    rw [hlog, show i + 1 - (LawfulStore.durable s.store).base =
      i - (LawfulStore.durable s.store).base + 1 by omega]
    exact (hl.dur.view.take hi).concat e
  · -- the snapshot ends at the base
    have hbase := hl.synced.1.trans hl.synced.2.2
    rw [hlog, List.length_append, List.length_take, Nat.min_eq_left hi']
    exact Nat.le_trans (Nat.le_of_eq hbase.symm) (Nat.le_trans hi (Nat.le_add_right i _))

/-- The entry is behind what is left of the log. A change of voters is not marked
as pending yet. -/
theorem LiveAt.store (hl : LiveAt K n .full s.commit h s) (hstate : s.state = .follower)
    {e : Entry} (hc : Cut K n (h.log n) i i s s') (hi : s.baseIndex ≤ i)
    (hi' : i ≤ (h.log n).length) (hcommit : s.commit ≤ i)
    (ha : Accepts h h' n ((h.log n).take i ++ [e]))
    (hno : ¬ (h.log n).take i ++ [e] <+: h.log n)
    (halone : K.neat → IsConfig e → ∀ a ≤ i, K.P.ConfAt (h.log n) a → a ≤ h.commit n) {store : σ}
    (hst : LawfulStore.durable store = (LawfulStore.durable s.store).append (i + 1) e) :
    LiveAt K n ⟨True, ¬ IsConfig e, False⟩ s.commit h'
      { s' with store := store, log := s'.log ++ [e] } := by
  have hview := hc.view hl hi
  have hlog : h'.log n = (h.log n).take i ++ [e] := ha.log_eq.trans (History.adopt_of_not_pre hno)
  have hlen : ((h.log n).take i).length = i := by simp [hi']
  have hpend := hc.pend
  have hnamed := hc.named
  obtain ⟨_, _, _, _, rfl⟩ := hc.frame
  refine { hl with
    named := hnamed
    voted := ?_
    logged := ?_
    configured := ?_
    single := fun _ => False.elim
    role := by rw [hstate]; trivial
    read := hl.read.advance ha.grows ha.term_eq
    out := fun m hm => (hl.out m hm).grow ha.grows
    dur := by rw [hst]; exact hl.dur_accept ha hi hi' hno halone
    synced := by rw [hst]; exact hl.synced }
  · unfold Voted
    rw [ha.term_eq, ha.vote_eq]
    exact hl.voted
  · rw [hlog, ha.commit_eq]
    refine { hl.logged with view := hview.concat e, baseTerm_eq := ?_ }
    rw [Protocol.termAt_of_pre (List.prefix_append _ _) (by rw [hlen]; exact hi),
      Protocol.termAt_take hi]
    exact hl.logged.baseTerm_eq
  · rw [hlog]
    refine ⟨?_, fun hplain a hlt hca => ?_⟩
    · rw [List.take_append_of_le_length (by omega), take_take_of_le hcommit]
      exact hl.configured.1
    · rcases confAt_concat.mp hca with hold | ⟨_, hnew⟩
      · exact hpend a hlt (by have := hold.le_length; omega) hold
      · exact absurd hnew hplain

/-- A stored change of voters becomes the pending one. -/
theorem LiveAt.markConfig {p : Prop} (hl : LiveAt K n ⟨True, p, False⟩ j h s) {k : Nat}
    (hk : (h.log n).length = k) {mask : Word} (hmask : K.Within mask) :
    LiveAt K n .trailing j h (Node.ensurePeers mask { s with pendingConfig := k }) := by
  have hl₁ := hl.markPending
  rw [hl.logged.view.lastIndex, hk] at hl₁
  exact hl₁.ensurePeers hmask

/-- Once the commit index has followed the leader's as far as the message confirms
the log, one change of voters is behind it at most. -/
def Tidies (K : Setting σ) (m : Message) (x : List Entry) (commit : Nat) : Prop :=
  K.tidy → ∀ k, commit ≤ k → min m.commit m.matched ≤ k → Single K x k

/-- The stored entry and the changes of voters in front of it. -/
theorem AppendInv.tidies (ha : AppendInv K h m r) (he : m.hasEntry = true) {x : List Entry}
    {k : Nat} (hi : m.logIndex ≤ x.length) (hx : x.take m.logIndex = r.log.take m.logIndex)
    (hone : K.tidy → Single K x k) : Tidies K m (x.take m.logIndex ++ [m.entry]) k := by
  intro ht k' hk hmin
  refine ((hone ht).mono hk).replace hi fun hce a hai hca => ?_
  have hle := ha.alone ht he hce a hai ((Protocol.confAt_eq_of_take hx hai).mp hca)
  unfold Message.matched at hmin
  rw [if_pos he] at hmin
  omega

/-- A committed entry is the leader's, so the commit index is in front of a conflict. -/
theorem AppendInv.commit_in_front (ha : AppendInv K g.1 m r) (hl : LiveAt K n M j g.1 s)
    (hlead : g.1.lead (g.1.term n) = some r) (he : m.hasEntry = true)
    (hne : m.logIndex < (g.1.log n).length →
      K.P.termAt (g.1.log n) (m.logIndex + 1) ≠ m.entry.term) : s.commit ≤ m.logIndex := by
  have hpre : (g.1.log n).take s.commit <+: r.log := by
    have := g.2.valid.committed_lead hlead (g.2.valid.commit_committed n)
    rwa [hl.logged.commit_eq] at this
  have hcle : s.commit ≤ (g.1.log n).length := by
    rw [← hl.logged.commit_eq]; exact g.2.valid.commit_le n
  by_contra hc
  refine hne (by omega) ?_
  rw [← Protocol.termAt_take (j := s.commit) (by omega), ← take_eq_of_takes hpre hcle,
    Protocol.termAt_take (by omega), Protocol.termAt_succ, ha.entry_eq he]
  rfl

/-- A log with an entry of the same term at the index holds what the message confirms. -/
theorem AppendInv.held (ha : AppendInv K g.1 m r) (he : m.hasEntry = true)
    (hlt : m.logIndex < (g.1.log n).length)
    (heq : K.P.termAt (g.1.log n) (m.logIndex + 1) = m.entry.term) :
    r.log.take (m.logIndex + 1) <+: g.1.log n := by
  have hlt' : m.logIndex < r.log.length := (List.getElem?_eq_some_iff.mp (ha.entry_eq he)).1
  have hterm : K.P.termAt r.log (m.logIndex + 1) = m.entry.term := by
    rw [Protocol.termAt_succ, ha.entry_eq he]
    rfl
  rw [← (g.2.valid.log_sound n).matching (g.2.valid.lead_sound ha.lead) hlt hlt'
    (heq.trans hterm.symm)]
  exact List.take_prefix _ _

/-- What follows once the entry is stored: a change of voters becomes the pending one. -/
theorem wp_markStored {Q : Bool → Hist K → Node σ → Prop} {e : Entry} {k : Nat}
    (hl : LiveAt K n ⟨True, ¬ IsConfig e, False⟩ s.commit g.1 s) (hk : (g.1.log n).length = k)
    (hmask : IsConfig e → K.Within (e.oldVoters ||| e.newVoters))
    (hok : ∀ s', s'.state = s.state → s'.commit = s.commit →
      LiveAt K n .trailing s'.commit g.1 s' → Q true g s') : NWp K n (do
        if e.isConfig then
          modify fun n : Node σ => { n with pendingConfig := k }
          modify (Node.ensurePeers (e.oldVoters ||| e.newVoters))
        return true) Q g s := by
  refine Wp.ite (fun hconf => ?_) fun hconf => Wp.of_pure (hok s rfl rfl
    (hl.weaken (fun _ => trivial) (fun _ hc => hconf (isConfig_iff.mpr hc)) False.elim))
  refine Wp.bind (Wp.of_modify (Wp.bind (Wp.of_modify (Wp.of_pure ?_))))
  have hl' := hl.markConfig hk (hmask (isConfig_iff.mp hconf))
  exact hok _ (ensurePeers_frame Node.state (fun _ _ _ _ => rfl) _ _) (ensurePeers_commit _ _)
    (by rwa [ensurePeers_commit])

/-- The branch that stores: the log ends in front of the entry. -/
theorem wp_storeBehind {Q : Bool → Hist K → Node σ → Prop} {s₁ : Node σ} (g₁ : Hist K)
    (hl : LiveAt K n .full s.commit g.1 s) (hstate : s.state = .follower)
    (ha : AppendInv K g.1 m r) (he : m.hasEntry = true) (hbase : s.baseIndex ≤ m.logIndex)
    (hlen : m.logIndex ≤ (g.1.log n).length) (hcommit : s.commit ≤ m.logIndex)
    (hacc : Accepts g.1 g₁.1 n ((g.1.log n).take m.logIndex ++ [m.entry]))
    (hno : ¬ (g.1.log n).take m.logIndex ++ [m.entry] <+: g.1.log n)
    (halone : K.neat → IsConfig m.entry → ∀ a ≤ m.logIndex,
      K.P.ConfAt (g.1.log n) a → a ≤ g.1.commit n)
    (hc : Cut K n (g.1.log n) m.logIndex m.logIndex s s₁)
    (hok : ∀ s', s'.state = .follower → s'.commit = s.commit →
      LiveAt K n .trailing s'.commit g₁.1 s' → Q true g₁ s')
    (hdead : ∀ g' s', Dead K n g'.1 s' → Q false g' s') : NWp K n (do
      if !(← tryStore (StableStore.append (m.logIndex + 1) m.entry)) then return false
      modify fun n => { n with log := n.log ++ [m.entry] }
      if m.entry.isConfig then
        modify fun n => { n with pendingConfig := m.logIndex + 1 }
        modify (Node.ensurePeers (m.entry.oldVoters ||| m.entry.newVoters))
      return true) Q g s₁ := by
  have hframe : s₁.store = s.store ∧ s₁.commit = s.commit ∧ s₁.state = s.state := by
    obtain ⟨_, _, _, _, hs₁⟩ := hc.frame
    rw [hs₁]
    exact ⟨rfl, rfl, rfl⟩
  have hdbase : (LawfulStore.durable s.store).base < m.logIndex + 1 := by
    rw [← hl.synced.1]; omega
  have hdlast : m.logIndex + 1 ≤ (LawfulStore.durable s.store).lastIndex + 1 := by
    rw [hl.durable_lastIndex, hl.logged.view.lastIndex]; omega
  refine Wp.bind (wp_tryStore_dead g₁
    (d := (LawfulStore.durable s.store).append (m.logIndex + 1) m.entry)
    (hc.down g.2 hl hbase hlen hcommit) (fun _ => hc.settled g.2 hl hbase hlen hcommit) ?_ ?_ ?_
    hacc.grows (hl.dur_accept hacc hbase hlen hno halone) ?_
    fun g' s' hd => Wp.of_pure (hdead g' s' hd))
  · rw [hframe.1]
    exact LawfulStore.append_atomic _ _ _ hdbase hdlast
  · rw [hframe.1]
    exact Nat.le_refl _
  · rw [hframe.1]
    exact fun hrel => (K.reliable_store hrel).append _ _ _ hdbase hdlast
  · intro store hst
    have hl₁ := hl.store hstate hc hbase hlen hcommit hacc hno halone hst
    rw [← hframe.2.1] at hl₁
    have hlen₁ : (g₁.1.log n).length = m.logIndex + 1 := by
      rw [hacc.log_eq.trans (History.adopt_of_not_pre hno)]
      simp [hlen]
    obtain ⟨_, hallow⟩ := (g.2.allowed _ _ ha.lead).mem (List.mem_of_getElem? (ha.entry_eq he))
    exact Wp.bind (Wp.of_modify (wp_markStored hl₁ hlen₁ (fun hce => (hallow.1 hce).2)
      fun s' hstate' hcommit' hl' => hok s' (hstate'.trans (hframe.2.2.trans hstate))
        (hcommit'.trans hframe.2.1) hl'))

/-- An accepted append leaves the node with what the message confirms. -/
theorem wp_storeEntry {Q : Bool → Hist K → Node σ → Prop}
    (hl : LiveAt K n .full s.commit g.1 s) (hstate : s.state = .follower)
    (ha : AppendInv K g.1 m r) (hterm : m.term = s.term)
    (hmatch : s.termAt m.logIndex = some m.logTerm)
    (halone : K.neat → m.hasEntry = true → IsConfig m.entry →
      (m.logIndex < (g.1.log n).length →
        K.P.termAt (g.1.log n) (m.logIndex + 1) ≠ m.entry.term) →
      ∀ a ≤ m.logIndex, K.P.ConfAt (g.1.log n) a → a ≤ s.commit)
    (hok : ∀ g' s', Accepts g.1 g'.1 n (r.log.take m.matched) → s'.state = .follower →
      s'.commit = s.commit → LiveAt K n .trailing s'.commit g'.1 s' →
      Tidies K m (g'.1.log n) s.commit → Q true g' s')
    (hdead : ∀ g' s', Dead K n g'.1 s' → Q false g' s') : NWp K n (storeEntry m) Q g s := by
  obtain ⟨hbase, hlen, hmatch⟩ := hl.logged.view.termAt_eq_some.mp hmatch
  have hlead : g.1.lead (g.1.term n) = some r := by
    rw [hl.voted.1, ← hterm]; exact ha.lead
  have hx : (g.1.log n).take m.logIndex = r.log.take m.logIndex :=
    (g.2.valid.log_sound n).matching (g.2.valid.lead_sound ha.lead) hlen ha.index_le
      (hmatch.trans ha.term_eq.symm)
  obtain ⟨h₁, hs₁, hacc⟩ := g.2.accept_own hlead (List.take_prefix m.matched r.log)
  have hone : K.tidy → Single K (g.1.log n) s.commit := fun ht => by
    rw [← hl.logged.commit_eq]
    exact hl.single ht trivial
  -- the node keeps its log when it holds the prefix
  have hkeep : r.log.take m.matched <+: g.1.log n → NWp K n (pure true) Q g s := fun hz => by
    refine Wp.ghost (show Hist.Rel K n g ⟨h₁, hs₁⟩ from hacc.grows) (Wp.of_pure ?_)
    refine hok _ s hacc hstate rfl
      ((hl.accept hstate hacc hz).weaken (fun h => h) (fun h => h) False.elim) ?_
    intro ht k hk _
    rw [hacc.log_eq, History.adopt_of_pre hz]
    exact (hone ht).mono hk
  refine Wp.ite (fun hno => hkeep ?_) fun hyes => ?_
  · have : m.hasEntry = false := by simpa using hno
    unfold Message.matched
    rw [this, if_neg (by simp), ← hx]
    exact List.take_prefix _ _
  · have he : m.hasEntry = true := by simpa using hyes
    have hmatched : m.matched = m.logIndex + 1 := by simp [Message.matched, he]
    refine Wp.bind (wp_truncateConflict hl hbase hlen
      (fun _ hne => ha.commit_in_front hl hlead he fun _ => hne) (fun hlt heq => ?_) fun s₁ hne hc => ?_)
    · refine Wp.bind (Wp.of_get ?_)
      rw [if_pos (by rw [hl.logged.view.lastIndex]; omega)]
      exact hkeep (hmatched ▸ ha.held he hlt heq)
    · have hno := not_pre_of_conflict (K := K) hlen hne
      have hacc' := hacc
      rw [hmatched, ha.prefix_eq he hx] at hacc'
      have hlast : s₁.lastIndex = m.logIndex := by
        rw [(hc.view hl hbase).lastIndex, List.length_take]
        omega
      refine Wp.bind (Wp.of_get ?_)
      rw [if_neg (by rw [hlast]; simp)]
      refine wp_storeBehind ⟨h₁, hs₁⟩ hl hstate ha he hbase hlen
        (ha.commit_in_front hl hlead he hne) hacc' hno ?_ hc (fun s' hstate' hcommit' hl' => ?_) hdead
      · intro hk hce
        rw [hl.logged.commit_eq]
        exact halone hk he hce hne
      · refine hok _ s' hacc hstate' hcommit' hl' ?_
        rw [show h₁.log n = _ from hacc'.log_eq.trans (History.adopt_of_not_pre hno)]
        exact ha.tidies he hlen hx hone

/-! ## Appends -/

omit [LawfulStore σ] in
/-- No change of voters between two indexes. -/
theorem View.plain {voters : Word} {x : List Entry} {commit last : Nat}
    (hview : View voters x s.baseIndex s.log) (hb : s.baseIndex ≤ commit)
    (hplain : ((indexes (commit + 1) last).all fun a => !(s.entryAt? a).any Entry.isConfig) = true) :
    ∀ a ≤ last, (protocol voters).ConfAt x a → a ≤ commit := by
  intro a ha hca
  by_contra hgt
  have hle := hca.le_length
  obtain ⟨a, rfl⟩ : ∃ i, a = i + 1 := ⟨a - 1, by omega⟩
  obtain ⟨e, he, hconf⟩ := hca
  have hno := List.all_eq_true.mp hplain (a + 1) (mem_indexes.mpr ⟨by omega, ha⟩)
  rw [hview.entryAt? (by omega) (by omega), Nat.add_sub_cancel, he] at hno
  simp [isConfig_iff.mpr hconf] at hno

/-- One change of voters is left behind the commit index at most. -/
theorem LiveAt.tidied (hl : LiveAt K n .trailing j h s)
    (hone : K.tidy → Single K (h.log n) (h.commit n)) : LiveAt K n .full j h s :=
  { hl with single := fun ht _ => hone ht }

theorem wp_followCommit {Q : Bool → Hist K → Node σ → Prop}
    (hl : LiveAt K n .trailing s.commit g.1 s) (htidy : Tidies K m (g.1.log n) s.commit)
    (hstate : s.state = .follower)
    (hz : r.log.take m.matched <+: g.1.log n) (hle : m.matched ≤ r.log.length)
    (hcommitted : g.1.Committed (g.1.term n) (r.log.take m.commit))
    (hok : ∀ g' s', History.Grows n g.1 g'.1 → LiveAt K n .full s'.commit g'.1 s' → Q true g' s')
    (hdead : ∀ g' s', Dead K n g'.1 s' → Q false g' s') : NWp K n (followCommit m) Q g s := by
  refine Wp.bind (Wp.of_get (Wp.ite (fun hno => ?_) fun hyes => ?_))
  · refine Wp.of_pure (hok g s (History.Grows.refl n g.1) (hl.tidied fun ht => ?_))
    rw [hl.logged.commit_eq]
    refine htidy ht _ (Nat.le_refl _) ?_
    simp only [Bool.not_eq_true', Bool.and_eq_false_iff, Bool.or_eq_false_iff,
      decide_eq_false_iff_not, gt_iff_lt, not_lt] at hno
    unfold Message.matched
    rcases hno with hle | ⟨hle, hent⟩
    · exact Nat.le_trans (Nat.min_le_left _ _) hle
    · refine Nat.le_trans (Nat.min_le_right _ _) ?_
      split
      · rename_i he
        rcases hent with hent | hent
        · rw [he] at hent; cases hent
        · exact hent
      · exact hle
  · simp only [Bool.not_eq_true', Bool.not_eq_false, Bool.and_eq_true, Bool.or_eq_true,
      decide_eq_true_eq, gt_iff_lt] at hyes
    have hmatched : s.commit < m.matched := by
      unfold Message.matched
      split
      · omega
      · rename_i hno
        rcases hyes.2 with hlt | ⟨he, _⟩
        · exact hlt
        · exact absurd he hno
    have htake : (g.1.log n).take (min m.commit m.matched) =
        r.log.take (min m.commit m.matched) :=
      take_eq_of_takes (take_prefix_mono (Nat.min_le_right _ _) hz) (by omega)
    have hlen := le_length_of_takes hz hle
    obtain ⟨h₁, hs₁, hr⟩ := g.2.learn_own (n := n) (i := min m.commit m.matched)
      (by rw [hl.logged.commit_eq]; omega) (by omega)
      (by
        rw [htake]
        exact hcommitted.of_pre (take_prefix_of_le (Nat.min_le_left _ _)))
    refine wp_commitTo ⟨h₁, hs₁⟩ hl (by rw [hstate]; exact State.noConfusion)
      (by omega) hr ?_ hdead
    intro s' hc hl'
    refine hok ⟨h₁, hs₁⟩ s' hr.grows ?_
    rw [hc]
    refine hl'.tidied fun ht => ?_
    rw [hr.log_eq, hr.commit_eq]
    exact htidy ht _ (by omega) (Nat.le_refl _)

/-- A node that follows another one is not leading. -/
theorem LiveAt.follow (hl : LiveAt K n M j h s) (hstate : s.state ≠ .leader) (leader : Nat) :
    LiveAt K n M j h { s with state := .follower, leader := leader, elapsed := 0 } := by
  have hready := hl.not_ready hstate
  refine { hl with role := trivial, read := { hl.read with leads := ?_ } }
  show s.readReady = true → _
  rw [hready]
  exact (nomatch ·)

/-- Another node leads the term. -/
theorem LiveAt.not_leader (hl : LiveAt K n M j h s) (hr : h.lead s.term = some r)
    (hwho : r.who ≠ n) : s.state ≠ .leader := by
  intro hstate
  have hrole := hl.role
  rw [hstate] at hrole
  obtain ⟨q, hq, hw⟩ := hrole.1
  rw [hl.voted.1, hr] at hq
  cases hq
  exact hwho hw

/-- A change of voters that extends the log is the only one behind the commit index. -/
theorem LiveAt.alone_of_valid (hl : LiveAt K n .full s.commit h s) {e : Entry} (hce : IsConfig e)
    (hvalid : s.validNewEntry e = true) : ∀ a, K.P.ConfAt (h.log n) a → a ≤ s.commit := by
  refine (hl.no_pending ?_).1
  unfold Node.validNewEntry at hvalid
  rcases hce with hkind | hkind
  · rw [hkind] at hvalid
    simp only [Bool.and_eq_true, decide_eq_true_eq] at hvalid
    exact hvalid.1.1.1.1
  · rw [hkind] at hvalid
    simp only [Bool.and_eq_true, decide_eq_true_eq] at hvalid
    exact hvalid.1.1.1

/-- An append that puts a change of voters in the place of another entry leaves no
other change behind the commit index. -/
def Node.KeepsSingle (s : Node σ) (m : Message) : Prop :=
  s.faulted = false → m.type = .append → s.term ≤ m.term → m.hasEntry = true →
    m.entry.isConfig = true → m.logIndex < s.lastIndex → s.termAt m.logIndex = some m.logTerm →
    s.termAt (m.logIndex + 1) ≠ some m.entry.term →
    ((indexes (s.commit + 1) m.logIndex).all fun a => !(s.entryAt? a).any Entry.isConfig) = true

theorem wp_onAppend (hl : LiveAt K n .full s.commit g.1 s) (hm : MsgInv K g.1 m)
    (htype : m.type = .append) (hto : m.toID = n) (hle : m.term ≤ s.term)
    (halone : K.neat → s.KeepsSingle m) :
    NWp K n (onAppend m) (Ends K n) g s := by
  have hfrom : m.fromID ≠ n := by rw [← hto]; exact hm.other
  have hvoter : Member K.voters s.id := by rw [hl.named.own]; exact hl.named.voter
  have hother : s.id ≠ m.fromID := by rw [hl.named.own]; exact hfrom.symm
  refine Wp.bind (Wp.of_get (Wp.ite (fun _ => ?_) fun hacc => ?_))
  · refine wp_send hl ⟨hvoter, hother, (fun hr => by cases hr), Or.inl rfl⟩ ?_
    rintro _ ⟨_, _, rfl⟩ hl'
    exact Live.good hl'
  · simp only [Node.rejectsAppend, Bool.or_eq_true, decide_eq_true_eq, not_or, ne_eq, not_not] at hacc
    have hterm : m.term = s.term := by omega
    have hclaim := hm.claim
    unfold Claim at hclaim
    rw [htype] at hclaim
    obtain ⟨r, ha⟩ := hclaim
    have hwho : r.who ≠ n := by rw [ha.who]; exact hfrom
    have hl₁ := hl.follow (hl.not_leader (by rw [← hterm]; exact ha.lead) hwho) m.fromID
    refine Wp.bind (Wp.of_modify (Wp.bind ?_))
    refine wp_storeEntry hl₁ rfl ha hterm hacc.1.2 ?_ ?_ ?_
    · intro hk he hce hne
      show ∀ a ≤ m.logIndex, K.P.ConfAt (g.1.log n) a → a ≤ s.commit
      rcases Nat.lt_or_ge m.logIndex s.lastIndex with hlt | hge
      · refine hl.logged.view.plain hl.base_le_commit (halone hk hl.running htype
          (Nat.le_of_eq hterm.symm) he (isConfig_iff.mpr hce) hlt hacc.1.2 fun hsome => ?_)
        obtain ⟨_, hi, ht⟩ := hl.logged.view.termAt_eq_some.mp hsome
        exact hne hi ht
      · have hlast := (hl.logged.view.termAt_eq_some.mp hacc.1.2).2.1
        rw [← hl.logged.view.lastIndex] at hlast
        have hvalid : s.validNewEntry m.entry = true := by
          have hlast' : m.logIndex + 1 = s.lastIndex + 1 := by omega
          simpa [he, hlast'] using hacc.2
        exact fun a _ => hl.alone_of_valid hce hvalid a
    · intro g₁ s₁ hacc₁ hstate₁ hcommit₁ hl₂ htidy
      have hmatched : m.matched ≤ r.log.length := by
        unfold Message.matched
        split
        · rename_i he
          exact (List.getElem?_eq_some_iff.mp (ha.entry_eq he)).1
        · exact ha.index_le
      have hz : r.log.take m.matched <+: g₁.1.log n := by
        rw [hacc₁.log_eq]; exact History.pre_adopt _ _
      have hgterm : g.1.term n = m.term := hl.voted.1.trans hterm.symm
      have hcom : g₁.1.Committed (g₁.1.term n) (r.log.take m.commit) := by
        rw [hacc₁.term_eq, hgterm]
        exact hacc₁.grows.committed ha.committed
      refine Wp.bind (wp_followCommit hl₂ (by rw [hcommit₁]; exact htidy) hstate₁ hz hmatched hcom
        ?_ ?_)
      · intro g₂ s₂ hg₂ hl₃
        refine wp_send hl₃ ⟨hvoter, hother, fun _ => ⟨?_, ?_⟩, Or.inl rfl⟩ ?_
        · show m.matched ≤ g₂.1.ack s.id s.term
          have hlen := hacc₁.ack_le
          rw [List.length_take, Nat.min_eq_left hmatched, hgterm, hterm] at hlen
          rw [hl.named.own]
          exact Nat.le_trans hlen (hg₂.ack_le _)
        · intro hf hc
          obtain ⟨h₀, hst, hsame⟩ := ha.context hf hc
          refine ⟨h₀, hst, hsame.trans hterm, ?_⟩
          show h₀.term s.id ≤ s.term
          rw [hl.named.own, ← hl.voted.1]
          exact (g.2.before _ _ _ hst).2.2 n
        · rintro _ ⟨_, _, rfl⟩ hl'
          exact Live.good hl'
      · intro g' s' hd
        exact Wp.of_pure (Or.inr hd)
    · intro g' s' hd
      exact Wp.of_pure (Or.inr hd)

end Promtact.Raft
