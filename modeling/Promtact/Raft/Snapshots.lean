import Promtact.Raft.Acknowledging

/-!
# Snapshots

A snapshot stands for a committed log `y`. Whoever stores one holds `y` from then
on: its log becomes `adopt y x`, and everything up to `y` is committed
(`Installs`). The same lemma covers a snapshot of the node's own log, one that
came from a leader, and the store that is opened after a crash in between the two
writes, because all of them cut the log by the same rule (`View.installed`).
-/

namespace Promtact.Raft

open QuorumLog GhostState
open Node (indexes)

variable {σ : Type} [LawfulStore σ] {K : Setting σ} {n : Nat}
variable {h h' : History Nat Entry} {s s' : Node σ} {M : Mode} {i j : Nat} {g g' : Hist K}
variable {m : Message} {y : List Entry} {snap : Snapshot}

/-! ## The step of the history -/

/-- Node `n` took over the committed log `y`. -/
structure Installs (h h' : History Nat Entry) (n : Nat) (y : List Entry) : Prop where
  grows : History.Grows n h h'
  log_eq : h'.log n = History.adopt y (h.log n)
  term_eq : h'.term n = h.term n
  vote_eq : h'.vote n = h.vote n
  lead_eq : h'.lead = h.lead
  commit_eq : h'.commit n = max (h.commit n) y.length

theorem Sane.install_own (hs : Sane K h) (hy : h.Committed (h.term n) y) :
    ∃ h', Sane K h' ∧ Installs h h' n y := by
  have h₁ := hs.install hy
  have hlog : (h.relog n (History.adopt y (h.log n))).log n = History.adopt y (h.log n) := by
    simp [History.relog]
  have hcommit : (h.relog n (History.adopt y (h.log n))).commit n = h.commit n := rfl
  have hlen : y.length ≤ (History.adopt y (h.log n)).length := (History.pre_adopt y _).length_le
  have hcle := h₁.valid.commit_le n
  rw [hcommit, hlog] at hcle
  have hknown : (h.relog n (History.adopt y (h.log n))).Committed
      ((h.relog n (History.adopt y (h.log n))).term n)
      (((h.relog n (History.adopt y (h.log n))).log n).take (max (h.commit n) y.length)) := by
    rcases Nat.le_total (h.commit n) y.length with hle | hle
    · rw [Nat.max_eq_right hle, hlog, take_eq_of_pre (History.pre_adopt y _) (Nat.le_refl _),
        List.take_length]
      exact (History.grows_relog (h := h) (n := n) _).committed hy
    · rw [Nat.max_eq_left hle, ← hcommit]
      exact h₁.valid.commit_committed n
  have h₂ := h₁.learn (n := n) (i := max (h.commit n) y.length)
    (by rw [hcommit]; exact Nat.le_max_left _ _) (by rw [hlog]; exact Nat.max_le.mpr ⟨hcle, hlen⟩)
    hknown
  refine ⟨_, h₂, ?_⟩
  exact {
    grows := (History.grows_relog _).trans
      (History.grows_learn (by rw [hcommit]; exact Nat.le_max_left _ _))
    log_eq := by simp [History.learn, History.relog]
    term_eq := rfl
    vote_eq := rfl
    lead_eq := rfl
    commit_eq := by simp [History.learn] }

/-- What is committed up to the node's commit index is in its log. -/
theorem Sane.committed_pre (hs : Sane K h) {t : Nat} (hy : h.Committed t y)
    (hle : y.length ≤ h.commit n) : y <+: h.log n := by
  have hlen : ((h.log n).take (h.commit n)).length = h.commit n := by
    simp [hs.valid.commit_le n]
  rcases hs.valid.committed_agree hy (hs.valid.commit_committed n) with hp | hp
  · exact hp.trans (List.take_prefix _ _)
  · rw [← hp.eq_of_length_le (by omega)]
    exact List.take_prefix _ _

/-! ## Cutting the log -/

/-- The rule by which memory and store are cut: what follows stays when the log
holds the snapshot's last entry. -/
theorem View.installed {x data : List Entry} {base : Nat} (hx : h.Sound K.P x)
    (hy : h.Sound K.P y) (hv : View K.voters x base data) (hb : base ≤ y.length) {c : Prop}
    [Decidable c] (hc : c ↔ y.length ≤ x.length ∧ K.P.termAt x y.length = K.P.lastTerm y) :
    View K.voters (History.adopt y x) y.length
      (if c then data.drop (y.length - base) else [{ term := K.P.lastTerm y }]) := by
  split
  · rename_i hheld
    obtain ⟨hle, hterm⟩ := hc.mp hheld
    have hpre : y <+: x := by
      have := hx.matching hy hle (Nat.le_refl _) hterm
      rw [List.take_length] at this
      rw [← this]
      exact List.take_prefix _ _
    rw [History.adopt_of_pre hpre]
    exact hv.drop hb hle
  · rename_i hnot
    have hpre : ¬ y <+: x := fun hp => hnot
      (hc.mpr ⟨hp.length_le, Protocol.termAt_of_pre hp (Nat.le_refl _)⟩)
    rw [History.adopt_of_not_pre hpre]
    exact View.bare y rfl

theorem Durable.term_eq_some {x : List Entry} {d : Durable} {t : Nat}
    (hv : View K.voters x d.base d.data) (hb : d.base ≤ i) :
    d.term i = some t ↔ i ≤ x.length ∧ K.P.termAt x i = t := by
  have hlast : d.lastIndex = x.length := by
    have := hv.length
    unfold Durable.lastIndex
    omega
  unfold Durable.term
  rw [hlast]
  by_cases hi : i ≤ x.length
  · rw [if_neg (by omega), hv.getElem?_term hb hi]
    simp [hi]
  · rw [if_pos (by omega)]
    simp [hi]

/-- The store of a running node holds the terms that the node holds. -/
theorem LiveAt.durable_term (hl : LiveAt K n M j h s) {t : Nat} (ht : s.termAt i = some t) :
    (LawfulStore.durable s.store).term i = some t := by
  obtain ⟨hb, hi, rfl⟩ := hl.logged.view.termAt_eq_some.mp ht
  exact (Durable.term_eq_some hl.dur.view (hl.synced.1 ▸ hb)).mpr ⟨hi, rfl⟩

/-- A log that starts with what is committed. -/
theorem Single.adopt {x : List Entry} {k : Nat} (hx : Single K x k) :
    Single K (History.adopt y x) (max k y.length) := by
  by_cases hp : y <+: x
  · rw [History.adopt_of_pre hp]
    exact hx.mono (Nat.le_max_left _ _)
  · rw [History.adopt_of_not_pre hp]
    intro a b ha _ hca
    have := hca.le_length
    omega

/-- The store after the log was cut at its snapshot. -/
theorem Dur.fence {d : Durable} (hs : Sane K h) (hd : Dur K h n d)
    (hy : h.Committed (h.term n) y) (hne : y ≠ []) (hdesc : Describes K y d.snapshot)
    (hown : K.Own n y d.snapshot.state) (hi : Installs h h' n y) : Dur K h' n d.fence := by
  have hlen := hdesc.1
  have hb := hd.base_le
  have hfact : OwnFact K h n d.snapshot := ⟨y, hne, hy, hdesc, hown⟩
  refine {
    voted := ?_
    view := ?_
    commit_eq := ?_
    base_le := Nat.le_refl _
    snapshot := Or.inr (hfact.grow hi.grows)
    single := fun hn => by rw [hi.log_eq, hi.commit_eq]; exact (hd.single hn).adopt
    reach := fun _ => by
      rw [hi.log_eq]
      exact Nat.le_trans (Nat.le_of_eq hlen) (History.pre_adopt y _).length_le }
  · unfold Voted
    rw [hi.term_eq, hi.vote_eq]
    exact hd.voted
  · unfold Durable.fence
    simp only [hlen, hdesc.2.1]
    rw [hlen] at hb
    rw [hi.log_eq]
    exact View.installed (hs.valid.log_sound n) (hs.valid.committed_sound hy) hd.view hb
      (Durable.term_eq_some hd.view hb)
  · rw [hi.commit_eq, hd.commit_eq]
    show _ = max d.hard.commit d.snapshot.lastIndex
    rw [hlen] at hb ⊢
    omega

/-! ## Storing a snapshot -/

/-- The snapshot is saved before the log is cut. -/
theorem wp_saveAndCompact {Q : Bool → Hist K → Node σ → Prop} (hd : Down K n g.1 s)
    (hset : K.Traced → s.Settled K g.1 n)
    (hy : g.1.Committed (g.1.term n) y) (hne : y ≠ []) (hdesc : Describes K y snap)
    (hown : K.Own n y snap.state)
    (hrel : K.reliable → (LawfulStore.durable s.store).base < snap.lastIndex ∧
      (LawfulStore.durable s.store).snapshot.lastIndex < snap.lastIndex)
    (hreach : K.reach → snap.lastIndex ≤ (g.1.log n).length)
    (hsnug : K.reliable → K.snug →
      (LawfulStore.durable s.store).term snap.lastIndex = some snap.lastTerm)
    (hok : ∀ g' store, Installs g.1 g'.1 n y → Dur K g'.1 n (LawfulStore.durable store) →
      Synced snap.lastIndex snap (LawfulStore.durable store) →
      Q true g' { s with store := store })
    (hdead : ∀ g' s', Dead K n g'.1 s' → Q false g' s') :
    NWp K n (saveAndCompact snap) Q g s := by
  unfold saveAndCompact
  cases hsnaps : StableStore.snapshots (σ := σ) with
  | none =>
    have hno : ¬ K.reliable := by
      intro hr
      obtain ⟨store, hstore, _⟩ := (K.reliable_store hr).snapshots
      rw [hsnaps] at hstore
      cases hstore
    refine Wp.bind (Wp.of_modify (Wp.of_pure (hdead g _ ?_)))
    exact {
      own := hd.own
      past := hd.past
      commit_le := hd.commit_le
      running := (absurd · hno)
      dur := hd.dur
      stopped := rfl
      state_eq := rfl
      silent := rfl
      unreliable := hno
      settled := hset }
  | some store =>
    rcases Nat.lt_or_ge snap.lastIndex (LawfulStore.durable s.store).snapshot.lastIndex with
      hold | hnew
    · -- the store has a newer snapshot and refuses
      obtain ⟨herr, hsame⟩ := LawfulStore.saveSnapshot_refuses store hsnaps snap s.store hold
      obtain ⟨err, herr⟩ := Option.ne_none_iff_exists'.mp herr
      refine Wp.bind (Wp.of_ok (tryStore_error herr) (History.Grows.refl n g.1) ?_)
      refine Wp.of_pure (hdead g _ (dead_of_failed hd hset ?_ (History.Grows.refl n g.1) ?_ ?_))
      · rw [hsame]
      · rw [hsame]; exact hd.dur
      · intro hr
        have := (hrel hr).2
        omega
    · have hbase := Nat.le_trans hd.dur.base_le hnew
      have hsaved : Dur K g.1 n ((LawfulStore.durable s.store).saveSnapshot snap) :=
        { hd.dur with base_le := hbase, snapshot := Or.inr ⟨y, hne, hy, hdesc, hown⟩, reach := hreach }
      refine Wp.bind (wp_tryStore_dead g hd hset
        (LawfulStore.saveSnapshot_atomic store hsnaps snap s.store) hnew ?_
        (History.Grows.refl n g.1) hsaved ?_ ?_)
      · intro hr
        obtain ⟨store', hstore, hsave, _⟩ := (K.reliable_store hr).snapshots
        rw [hsnaps] at hstore
        cases hstore
        exact hsave snap s.store (hrel hr).2 (hrel hr).1
      · intro st hst
        obtain ⟨h₁, hs₁, hi⟩ := g.2.install_own hy
        have hlast : (LawfulStore.durable st).snapshot = snap := by rw [hst]; rfl
        have hbase' : (LawfulStore.durable st).base = (LawfulStore.durable s.store).base := by
          rw [hst]; rfl
        have hdur : Dur K g.1 n (LawfulStore.durable st) := by rw [hst]; exact hsaved
        have hatomic := LawfulStore.compactLog_atomic store hsnaps st
          (by rw [hlast, hbase']; exact hbase)
        rw [hlast] at hatomic
        have hfence := hdur.fence g.2 hy hne (by rwa [hlast]) (by rwa [hlast]) hi
        have hset' : K.Traced → ({ s with store := st } : Node σ).Settled K g.1 n :=
          fun ht => (hset ht).imp_left fun hb => Nat.le_trans hb (by rw [hlast]; exact hnew)
        refine wp_tryStore_dead ⟨h₁, hs₁⟩ { hd with dur := hdur } hset' hatomic (Nat.le_refl _) ?_
          hi.grows hfence ?_ hdead
        · intro hr
          obtain ⟨store', hstore, _, hcompact⟩ := (K.reliable_store hr).snapshots
          rw [hsnaps] at hstore
          cases hstore
          have := hcompact st (by rw [hlast, hbase']; exact (hrel hr).1) fun hk => by
            rw [hlast, hst]
            exact hsnug hr hk
          rwa [hlast] at this
        · intro st' hst'
          refine hok ⟨h₁, hs₁⟩ st' hi (by rw [hst']; exact hfence) ?_
          rw [hst']
          refine ⟨?_, hlast.symm, rfl⟩
          show snap.lastIndex = (LawfulStore.durable st).snapshot.lastIndex
          rw [hlast]
      · intro g' s' hd'
        exact Wp.of_pure (hdead g' s' hd')

/-! ## Compaction -/

/-- A committed prefix of a log, as a snapshot. -/
theorem describes_take {x : List Entry} {index : Nat} (hi : index ≤ x.length)
    (hlast : snap.lastIndex = index) (hterm : snap.lastTerm = K.P.termAt x index)
    (hconf : configAfter K.voters (x.take index) = (snap.oldVoters, snap.newVoters))
    (himage : K.Image (x.take index) snap.state) : Describes K (x.take index) snap := by
  have hlen : (x.take index).length = index := by simp [hi]
  refine ⟨by rw [hlen, hlast], ?_, hconf, himage⟩
  rw [hterm, Protocol.lastTerm, hlen, Protocol.termAt_take (Nat.le_refl _)]

/-- A node that discards what its own snapshot covers. -/
theorem LiveAt.compacted (hl : LiveAt K n M j h s) {index : Nat} (hs : Sane K h)
    (hi : Installs h h' n ((h.log n).take index)) (hb : s.baseIndex ≤ index)
    (hia : index ≤ s.applied) {store : σ} (hdur : Dur K h' n (LawfulStore.durable store))
    (hsync : Synced index snap (LawfulStore.durable store)) :
    LiveAt K n M j h' { s with
      store := store
      log := s.log.drop (index - s.baseIndex)
      baseIndex := index, baseTerm := K.P.termAt (h.log n) index, snapshot := snap } := by
  have hcle := hs.valid.commit_le n
  have hcommit := hl.logged.commit_eq
  have happlied := hl.logged.applied_le
  have hlen : index ≤ (h.log n).length := by omega
  have hlog : h'.log n = h.log n := hi.log_eq.trans (History.adopt_of_pre (List.take_prefix _ _))
  have hcommit' : h'.commit n = h.commit n := by
    rw [hi.commit_eq, List.length_take]
    omega
  refine { hl with
    voted := ?_
    logged := ?_
    configured := by rw [hlog]; exact hl.configured
    single := by rw [hlog, hcommit']; exact hl.single
    role := ?_
    read := hl.read.advance hi.grows hi.term_eq
    out := fun msg hm => (hl.out msg hm).grow hi.grows
    dur := hdur
    synced := hsync }
  · unfold Voted
    rw [hi.term_eq, hi.vote_eq]
    exact hl.voted
  · rw [hlog, hcommit']
    exact { hl.logged with
      view := hl.logged.view.drop hb hlen
      base_le := hia
      baseTerm_eq := rfl }
  · have hrole := hl.role
    show RoleInv M h' n s.peers s.state s.voteMask s.matchIndex
    cases hstate : s.state with
    | follower => trivial
    | candidate =>
      rw [hstate] at hrole
      obtain ⟨hc, hno, hvotes⟩ := hrole
      refine ⟨?_, ?_, fun id hid => ?_⟩
      · rw [hi.term_eq, hlog, hcommit']; exact hi.grows.cand' hc
      · unfold Reigns
        rw [hi.lead_eq, hi.term_eq]
        exact hno
      · rw [hi.term_eq]; exact hi.grows.vote' (hvotes id hid)
    | leader =>
      rw [hstate] at hrole
      obtain ⟨hr, hlen, hacks⟩ := hrole
      refine ⟨hr.advance hi.grows hi.term_eq, ?_, fun ha p hp => ?_⟩
      · rw [hlog, hi.term_eq]; exact Nat.le_trans hlen (hi.grows.ack_le _)
      · rw [hi.term_eq]; exact Nat.le_trans (hacks ha p hp) (hi.grows.ack_le' p _)

/-- A stopped node that discards what its own snapshot covers. -/
theorem Dead.compacted (hd : Dead K n h s) {x : List Entry} {index : Nat}
    (hi : History.Grows n h h') (hview : View K.voters x s.baseIndex s.log)
    (hsound : h.Sound K.P x) (hcx : s.commit ≤ x.length)
    (hcom : h.Committed (h.term n) (x.take s.commit))
    (hconf : configAfter K.voters (x.take s.commit) = (s.votersOld, s.votersNew))
    (hb : s.baseIndex ≤ index) (hia : index ≤ s.applied) (hac : s.applied ≤ s.commit) {store : σ}
    {baseTerm : Nat} (hdur : Dur K h' n (LawfulStore.durable store))
    (hsync : Synced index snap (LawfulStore.durable store)) :
    Dead K n h' { s with
      store := store
      log := s.log.drop (index - s.baseIndex)
      baseIndex := index, baseTerm := baseTerm, snapshot := snap } := by
  have hview' := hview.drop hb (Nat.le_trans hia (Nat.le_trans hac hcx))
  obtain ⟨hbase, _, hlast⟩ := hsync
  have hcov : index ≤ (LawfulStore.durable store).snapshot.lastIndex := by omega
  exact { hd with
    past := Past.grow ⟨x, hview', hsound, hia, hac, hcx, hcom⟩ hi
    commit_le := Nat.le_trans hd.commit_le (hi.commit_le' n)
    dur := hdur
    settled := fun _ => Settled.grow ⟨hcov, x, hview', hsound, hia, hac, hcx, hcom, hconf⟩ hi }

/-- No joint or final configuration stands at an index in `(index, Commit]`. -/
def Node.plainBehind (s : Node σ) (index : Nat) : Bool :=
  (indexes (index + 1) s.commit).all fun a => !(s.entryAt? a).any Entry.isConfig

/-- What a compaction at `index` with `state` has to keep to. -/
structure Compacts (K : Setting σ) (h : History Nat Entry) (n : Nat) (s : Node σ) (index : Nat)
    (state : List UInt8) : Prop where
  image : ∀ y, y.length = index → h.Committed (h.term n) y → K.Image y state
  own : ∀ y, y.length = index → h.Committed (h.term n) y → K.Own n y state
  plain : K.reconf → K.orderly ∧ s.plainBehind index = true

/-- The voters at an index with no committed change behind it. -/
theorem config_behind {x : List Entry} {index : Nat} (hs : Sane K h) (hx : h.Sound K.P x)
    (hview : View K.voters x s.baseIndex s.log) (hb : s.baseIndex ≤ index) (hi : index ≤ s.commit)
    (hcx : s.commit ≤ x.length) (hplain : K.reconf → s.plainBehind index = true) :
    configAfter K.voters (x.take index) = configAfter K.voters (x.take s.commit) := by
  by_cases hr : K.reconf
  · rw [← configAfter_take (x := x.take s.commit) (q := index), take_take_of_le hi]
    intro a ha hca
    have hle : a ≤ s.commit := by
      have := hca.le_length
      simp only [List.length_take] at this
      omega
    exact absurd (hview.plain hb (hplain hr) a hle ((Protocol.confAt_take hle).mp hca)) (by omega)
  · rw [hs.config_fixed hr (hx.take _), hs.config_fixed hr (hx.take _)]

/-- A committed prefix of a log that a node may compact. -/
theorem describes_compacted {x : List Entry} {index : Nat} {state : List UInt8} (hs : Sane K h)
    (hx : h.Sound K.P x) (hview : View K.voters x s.baseIndex s.log)
    (hcx : s.commit ≤ x.length) (hcom : h.Committed (h.term n) (x.take s.commit))
    (hconf : configAfter K.voters (x.take s.commit) = (s.votersOld, s.votersNew))
    (hb : s.baseIndex < index) (hi : index ≤ s.commit) (hc : Compacts K h n s index state) :
    h.Committed (h.term n) (x.take index) ∧ x.take index ≠ [] ∧ Describes K (x.take index) {
      lastIndex := index, lastTerm := K.P.termAt x index, state := state
      oldVoters := s.votersOld, newVoters := s.votersNew } ∧ K.Own n (x.take index) state := by
  have hlen : (x.take index).length = index := by
    rw [List.length_take]
    omega
  have hy : h.Committed (h.term n) (x.take index) := hcom.of_pre (take_prefix_of_le hi)
  refine ⟨hy, ?_, describes_take (by omega) rfl rfl ?_ (hc.image _ hlen hy), hc.own _ hlen hy⟩
  · intro hnil
    rw [hnil, List.length_nil] at hlen
    omega
  · rw [config_behind hs hx hview (Nat.le_of_lt hb) hi hcx fun hr => (hc.plain hr).2, hconf]

theorem wp_compact {index : Nat} {state : List UInt8} (hg : Good K n g.1 s)
    (hc : s.baseIndex < index → index ≤ s.applied → Compacts K g.1 n s index state) :
    NWp K n (compact index state) (Ends K n) g s := by
  refine Wp.bind (Wp.of_get (Wp.ite (fun _ => Wp.of_pure hg) fun hno => ?_))
  simp only [Bool.or_eq_true, decide_eq_true_eq, not_or, not_le, gt_iff_lt, not_lt] at hno
  obtain ⟨hbase, happlied⟩ := hno
  have hcomp := hc hbase happlied
  cases hterm : s.termAt index with
  | none => exact Wp.of_pure hg
  | some term =>
    rcases hg with hl | hd
    · replace hl : LiveAt K n .full s.commit g.1 s := hl
      obtain ⟨_, hlen, rfl⟩ := hl.logged.view.termAt_eq_some.mp hterm
      have hset := hl.settled g.2
      have hcle := g.2.valid.commit_le n
      have hcom := g.2.valid.commit_committed n
      rw [hl.logged.commit_eq] at hcle hcom
      obtain ⟨hy, hne, hdesc, hown⟩ := describes_compacted g.2 (g.2.valid.log_sound n) hl.logged.view
        hcle hcom hl.configured.1 hbase (Nat.le_trans happlied hl.logged.applied_le) hcomp
      refine Wp.bind (wp_saveAndCompact (hl.down g.2) (fun _ => hset) hy hne hdesc hown ?_
        (fun _ => hlen) ?_ ?_ ?_)
      · intro _
        have hsync := hl.synced
        exact ⟨by rw [← hsync.1]; exact hbase, by rw [← hsync.2.2, ← hsync.1]; exact hbase⟩
      · exact fun _ _ => hl.durable_term hterm
      · intro g' store hi hdur hsync
        refine Wp.bind (Wp.of_modify (Wp.of_pure (Live.good ?_)))
        exact hl.compacted g.2 hi (Nat.le_of_lt hbase) happlied hdur hsync
      · intro g' s' hd
        exact Wp.of_pure (Or.inr hd)
    · obtain ⟨_, x, hview, hsound, _, hac, hcx, hcom, hconf⟩ :=
        hd.settled fun hr => (hcomp.plain hr).1
      obtain ⟨_, hlen, rfl⟩ := hview.termAt_eq_some.mp hterm
      obtain ⟨hy, hne, hdesc, hown⟩ := describes_compacted g.2 hsound hview hcx hcom hconf hbase
        (Nat.le_trans happlied hac) hcomp
      have hreach : index ≤ (g.1.log n).length :=
        calc index ≤ s.commit := Nat.le_trans happlied hac
          _ ≤ g.1.commit n := hd.commit_le
          _ ≤ (g.1.log n).length := g.2.valid.commit_le n
      refine Wp.bind (wp_saveAndCompact hd.toDown hd.settled hy hne hdesc hown
        (fun hr => absurd hr hd.unreliable) (fun _ => hreach) (fun hr => absurd hr hd.unreliable)
        ?_ ?_)
      · intro g' store hi hdur hsync
        refine Wp.bind (Wp.of_modify (Wp.of_pure (Or.inr ?_)))
        exact hd.compacted hi.grows hview hsound hcx hcom hconf (Nat.le_of_lt hbase) happlied hac
          hdur hsync
      · intro g' s' hd'
        exact Wp.of_pure (Or.inr hd')

/-! ## Snapshots of a leader -/

/-- A node that takes over the snapshot of its leader, and follows it. -/
theorem LiveAt.installed (hl : LiveAt K n .full s.commit h s) (hs : Sane K h)
    (hstate : s.state ≠ .leader) (hy : h.Committed (h.term n) y)
    (hdesc : Describes K y snap) (hi : Installs h h' n y) (hb : s.baseIndex ≤ y.length)
    (hkeeps : K.reconf → y.length < s.commit →
      (snap.oldVoters, snap.newVoters) = (s.votersOld, s.votersNew))
    {store : σ} (hdur : Dur K h' n (LawfulStore.durable store))
    (hsync : Synced snap.lastIndex snap (LawfulStore.durable store)) (leader : Nat) :
    LiveAt K n .full (max s.commit snap.lastIndex) h' { s with
      store := store
      log := s.logBehind snap
      baseIndex := snap.lastIndex, baseTerm := snap.lastTerm, snapshot := snap
      votersOld := snap.oldVoters, votersNew := snap.newVoters
      commit := max s.commit snap.lastIndex
      applied := max s.applied snap.lastIndex
      state := .follower, leader := leader, elapsed := 0 } := by
  obtain ⟨hlast, hlterm, hconf, _⟩ := hdesc
  have hsound := hs.valid.log_sound n
  have hysound := hs.valid.committed_sound hy
  have hcommit : h'.commit n = max s.commit snap.lastIndex := by
    rw [hi.commit_eq, hl.logged.commit_eq, hlast]
  have hpre : y <+: h'.log n := by rw [hi.log_eq]; exact History.pre_adopt y _
  have hheld : s.termAt snap.lastIndex = some snap.lastTerm ↔
      y.length ≤ (h.log n).length ∧ K.P.termAt (h.log n) y.length = K.P.lastTerm y := by
    rw [hl.logged.view.termAt_eq_some, hlast, hlterm]
    exact and_iff_right hb
  have hready := hl.not_ready hstate
  refine { hl with
    voted := ?_
    logged := ?_
    configured := ⟨?_, fun _ a ha hca => ?_⟩
    single := fun ht hM => by rw [hi.log_eq, hi.commit_eq]; exact (hl.single ht hM).adopt
    role := trivial
    read := ?_
    out := fun msg hm => (hl.out msg hm).grow hi.grows
    dur := hdur
    synced := hsync }
  · unfold Voted
    rw [hi.term_eq, hi.vote_eq]
    exact hl.voted
  · refine {
      view := ?_
      commit_eq := hcommit
      base_le := Nat.le_max_right _ _
      applied_le := ?_
      baseTerm_eq := ?_ }
    · show View K.voters (h'.log n) snap.lastIndex (s.logBehind snap)
      unfold Node.logBehind
      simp only [hlast, hlterm] at hheld ⊢
      rw [hi.log_eq]
      exact View.installed hsound hysound hl.logged.view hb hheld
    · have := hl.logged.applied_le
      show max s.applied snap.lastIndex ≤ max s.commit snap.lastIndex
      omega
    · show snap.lastTerm = K.P.termAt (h'.log n) snap.lastIndex
      rw [hlast, hlterm, Protocol.termAt_of_pre hpre (Nat.le_refl _)]
      rfl
  · -- the snapshot's voters are those of everything committed
    show configAfter K.voters ((h'.log n).take (max s.commit snap.lastIndex)) = _
    rcases Nat.lt_or_ge y.length s.commit with hlt | hle
    · have hyx : y <+: h.log n := hs.committed_pre hy (by rw [hl.logged.commit_eq]; omega)
      rw [hlast, Nat.max_eq_left (Nat.le_of_lt hlt), hi.log_eq, History.adopt_of_pre hyx]
      by_cases hr : K.reconf
      · rw [hkeeps hr hlt]
        exact hl.configured.1
      · rw [← hconf, hs.config_fixed hr hysound, hs.config_fixed hr (hsound.take _)]
    · rw [← hconf, hlast, Nat.max_eq_right hle, take_eq_of_pre hpre (Nat.le_refl _),
        List.take_length]
  · -- what is behind the commit index was there before
    have hgt : max s.commit snap.lastIndex < a := ha
    rw [hi.log_eq] at hca
    by_cases hp : y <+: h.log n
    · rw [History.adopt_of_pre hp] at hca
      exact hl.configured.2 trivial a (by omega) hca
    · rw [History.adopt_of_not_pre hp] at hca
      have := hca.le_length
      omega
  · have hread := hl.read.advance hi.grows hi.term_eq
    refine { hread with leads := ?_ }
    show s.readReady = true → _
    rw [hready]
    exact (nomatch ·)

/-- A node acknowledges its base to the leader of its term. -/
theorem LiveAt.acknowledgeBase (hl : LiveAt K n M s.commit h s) (hs : Sane K h)
    (hstate : s.state = .follower) {r : Reign Nat Entry} (hr : h.lead (h.term n) = some r) :
    ∃ h', Sane K h' ∧ History.Grows n h h' ∧ s.baseIndex ≤ h'.ack n s.term ∧
      LiveAt K n M s.commit h' s := by
  have hb := hl.base_le_commit
  have hcle : s.commit ≤ (h.log n).length := by
    rw [← hl.logged.commit_eq]; exact hs.valid.commit_le n
  have hpre : (h.log n).take s.baseIndex <+: r.log := by
    have := hs.valid.committed_lead hr (hs.valid.commit_committed n)
    rw [hl.logged.commit_eq] at this
    exact take_prefix_mono hb this
  have hlen : s.baseIndex ≤ r.log.length := le_length_of_takes hpre (by omega)
  have hz : r.log.take s.baseIndex <+: h.log n := by
    rw [take_eq_of_takes hpre (by omega)]
    exact List.take_prefix _ _
  obtain ⟨h₁, hs₁, ha⟩ := hs.accept_own hr (List.take_prefix s.baseIndex r.log)
  refine ⟨h₁, hs₁, ha.grows, ?_, hl.accept hstate ha hz⟩
  have := ha.ack_le
  rw [List.length_take, Nat.min_eq_left hlen, hl.voted.1] at this
  exact this

theorem wp_onInstallSnapshot (hl : LiveAt K n .full s.commit g.1 s) (hm : MsgInv K g.1 m)
    (htype : m.type = .installSnapshot) (hto : m.toID = n) (hle : m.term ≤ s.term)
    (hkeeps : K.reconf → m.term = s.term → m.snapshotOld ≠ 0 → s.baseIndex < m.snapshotIndex →
      m.snapshotIndex < s.commit → (m.snapshotOld, m.snapshotNew) = (s.votersOld, s.votersNew))
    (hheld : K.snug → m.term = s.term → m.snapshotOld ≠ 0 → s.baseIndex < m.snapshotIndex →
      s.termAt m.snapshotIndex = some m.snapshotTerm)
    (hreach : K.reach → m.term = s.term → m.snapshotOld ≠ 0 → s.baseIndex < m.snapshotIndex →
      m.snapshotIndex ≤ s.lastIndex)
    (hown : m.term = s.term → m.snapshotOld ≠ 0 → s.baseIndex < m.snapshotIndex →
      ∀ y, K.Image y m.snapshot → K.Own n y m.snapshot) :
    NWp K n (onInstallSnapshot m) (Ends K n) g s := by
  have hfrom : m.fromID ≠ n := by rw [← hto]; exact hm.other
  have hvoter : Member K.voters s.id := by rw [hl.named.own]; exact hl.named.voter
  have hother : s.id ≠ m.fromID := by rw [hl.named.own]; exact hfrom.symm
  refine Wp.bind (Wp.of_get (Wp.ite (fun _ => ?_) fun hacc => ?_))
  · refine wp_send hl ⟨hvoter, hother, (fun hr => by cases hr), Or.inl rfl⟩ ?_
    rintro _ ⟨_, _, rfl⟩ hl'
    exact Live.good hl'
  · simp only [Node.rejectsSnapshot, Bool.or_eq_true, decide_eq_true_eq, not_or] at hacc
    obtain ⟨⟨⟨hterm', _⟩, hold⟩, _⟩ := hacc
    have hterm : m.term = s.term := by omega
    have hclaim := hm.claim
    unfold Claim at hclaim
    rw [htype] at hclaim
    obtain ⟨⟨r, hr, hwho⟩, y, hne, hy, hdesc⟩ := hclaim hold
    have hgterm : g.1.term n = m.term := hl.voted.1.trans hterm.symm
    have hstate : s.state ≠ .leader :=
      hl.not_leader (by rw [← hterm]; exact hr) (by rw [hwho]; exact hfrom)
    -- the answer, once the node follows
    have hanswer : ∀ (g' : Hist K) (s' : Node σ), s'.id = s.id →
        g'.1.lead (g'.1.term n) = some r →
        LiveAt K n .full s'.commit g'.1
          { s' with state := .follower, leader := m.fromID, elapsed := 0 } →
        NWp K n (do
          modify fun n => { n with state := .follower, leader := m.fromID, elapsed := 0 }
          let n ← get
          send {
            type := .installSnapshotResponse, fromID := n.id, toID := m.fromID, term := n.term
            matchIndex := n.baseIndex }) (Ends K n) g' s' := by
      intro g' s' hid hr' hl'
      obtain ⟨h₁, hs₁, hg₁, hack, hl₁⟩ := LiveAt.acknowledgeBase
        (s := { s' with state := .follower, leader := m.fromID, elapsed := 0 }) hl' g'.2 rfl hr'
      refine Wp.bind (Wp.of_modify (Wp.bind (Wp.of_get ?_)))
      refine Wp.ghost (show Hist.Rel K n g' ⟨h₁, hs₁⟩ from hg₁) ?_
      refine wp_send hl₁ ⟨by rw [hid]; exact hvoter, by rw [hid]; exact hother, fun _ => ?_, Or.inl rfl⟩ ?_
      · show s'.baseIndex ≤ h₁.ack s'.id s'.term
        rw [hid, hl.named.own]
        exact hack
      · rintro _ ⟨_, _, rfl⟩ hl''
        exact Live.good hl''
    refine Wp.bind (Wp.bind (Wp.of_get (Wp.ite (fun _ => ?_) fun hgt => ?_)))
    · refine Wp.of_pure (hanswer g s rfl (by rw [hgterm]; exact hr) ?_)
      exact hl.follow hstate m.fromID
    · have hgt' : s.baseIndex < m.snapshotIndex := by omega
      have hylen : m.snapshotIndex = y.length := hdesc.1
      rw [← hgterm] at hy
      refine Wp.bind (wp_saveAndCompact (hl.down g.2) (fun _ => hl.settled g.2) hy hne hdesc
        (hown hterm hold hgt' y hdesc.2.2.2) ?_
        ?_ ?_ ?_ ?_)
      · intro _
        have hsync := hl.synced
        show _ < m.snapshotIndex ∧ _ < m.snapshotIndex
        exact ⟨by rw [← hsync.1]; exact hgt', by rw [← hsync.2.2, ← hsync.1]; exact hgt'⟩
      · intro hk
        rw [← hl.logged.view.lastIndex]
        exact hreach hk hterm hold hgt'
      · exact fun _ hk => hl.durable_term (hheld hk hterm hold hgt')
      · intro g' store hi hdur hsync
        refine Wp.bind (Wp.of_modify (Wp.of_pure (hanswer g' _ rfl ?_ ?_)))
        · rw [hi.term_eq, hi.lead_eq, hgterm]; exact hr
        · refine hl.installed g.2 hstate hy hdesc hi (by omega) (fun hrec hlt => ?_) hdur hsync
            m.fromID
          exact hkeeps hrec hterm hold hgt' (by omega)
      · intro g' s' hd
        exact Wp.of_pure (Wp.of_pure (Or.inr hd))

end Promtact.Raft
