import Promtact.Raft.Invariant

/-!
# The invariant under the steps of a history

Messages and the nodes that do not act keep what they claim when another node
acts (`MsgInv.grow`, `LiveAt.other`). Every step of the library keeps `Sane`
under the guard that the code provides.
-/

namespace Promtact.Raft

open QuorumLog GhostState

variable {σ : Type} [LawfulStore σ] {K : Setting σ}
variable {h h' : History Nat Entry} {n m : Nat}

/-! ## Growth -/

theorem SnapFact.grow {t t' : Nat} {snap : Snapshot} (hs : SnapFact K h t snap)
    (g : History.Grows m h h') (ht : t ≤ t') : SnapFact K h' t' snap := by
  obtain ⟨y, hne, hc, hd⟩ := hs
  exact ⟨y, hne, (g.committed hc).later ht, hd⟩

theorem OwnFact.grow {snap : Snapshot} (hs : OwnFact K h n snap) (g : History.Grows m h h') :
    OwnFact K h' n snap := by
  obtain ⟨y, hne, hc, hd⟩ := hs
  exact ⟨y, hne, (g.committed hc).later (g.term_le' n), hd⟩

theorem OwnFact.snapFact {snap : Snapshot} (hs : OwnFact K h n snap) :
    SnapFact K h (h.term n) snap := by
  obtain ⟨y, hne, hc, hd, _⟩ := hs
  exact ⟨y, hne, hc, hd⟩

theorem Reigns.grow_at {t : Nat} (hr : ∃ r, h.lead t = some r ∧ r.who = n)
    (g : History.Grows m h h') : ∃ r, h'.lead t = some r ∧ r.who = n := by
  obtain ⟨r, hr, hw⟩ := hr
  obtain ⟨r', hr', hw', _⟩ := g.lead hr
  exact ⟨r', hr', hw'.trans hw⟩

theorem AppendInv.grow {msg : Message} {r : Reign Nat Entry} (ha : AppendInv K h msg r)
    (g : History.Grows m h h') : ∃ r', AppendInv K h' msg r' := by
  obtain ⟨r', hr', hw', _, _, hp⟩ := g.lead ha.lead
  refine ⟨r', ?_⟩
  exact {
    lead := hr'
    who := hw'.trans ha.who
    index_le := Nat.le_trans ha.index_le hp.length_le
    term_eq := (Protocol.termAt_of_pre hp ha.index_le).trans ha.term_eq
    entry_eq := fun he => getElem?_of_pre hp (ha.entry_eq he)
    commit_le := Nat.le_trans ha.commit_le hp.length_le
    committed := by
      rw [take_eq_of_pre hp ha.commit_le]
      exact g.committed ha.committed
    alone := fun ht he hc a hle hca => by
      refine ha.alone ht he hc a hle ?_
      rwa [← Protocol.confAt_eq_of_take (take_eq_of_pre hp ha.index_le) hle]
    context := ha.context }

theorem Claim.grow {msg : Message} (hc : Claim K h msg) (g : History.Grows m h h') :
    Claim K h' msg := by
  unfold Claim at hc ⊢
  cases hk : msg.type with
  | requestVote =>
    rw [hk] at hc
    obtain ⟨x, k, hcand, rest⟩ := hc
    exact ⟨x, k, g.cand' hcand, rest⟩
  | requestVoteResponse => rw [hk] at hc; exact fun hr => g.vote' (hc hr)
  | append =>
    rw [hk] at hc
    obtain ⟨r, hr⟩ := hc
    exact hr.grow g
  | appendResponse =>
    rw [hk] at hc
    exact fun hr => ⟨Nat.le_trans (hc hr).1 (g.ack_le' _ _), (hc hr).2⟩
  | installSnapshot =>
    rw [hk] at hc
    exact fun hr => ⟨Reigns.grow_at (hc hr).1 g, (hc hr).2.grow g (Nat.le_refl _)⟩
  | installSnapshotResponse =>
    rw [hk] at hc
    exact fun hr => Nat.le_trans (hc hr) (g.ack_le' _ _)
  | preVote => trivial
  | preVoteResponse => trivial
  | timeoutNow => trivial
  | other c => trivial

theorem MsgInv.grow {msg : Message} (hm : MsgInv K h msg) (g : History.Grows m h h') :
    MsgInv K h' msg := { hm with claim := hm.claim.grow g }

theorem Past.grow {log : List Entry} {base commit applied : Nat}
    (hp : Past K h n log base commit applied) (g : History.Grows m h h') :
    Past K h' n log base commit applied := by
  obtain ⟨x, hv, hs, hb, ha, hc, hk⟩ := hp
  exact ⟨x, hv, g.sound hs, hb, ha, hc, (g.committed hk).later (g.term_le' n)⟩

theorem Settled.grow {log : List Entry} {base commit applied covered : Nat} {old new : Word}
    (hp : Settled K h n log base commit applied old new covered) (g : History.Grows m h h') :
    Settled K h' n log base commit applied old new covered := by
  obtain ⟨hcov, x, hv, hs, hb, ha, hc, hk, hconf⟩ := hp
  exact ⟨hcov, x, hv, g.sound hs, hb, ha, hc, (g.committed hk).later (g.term_le' n), hconf⟩

/-! ## The nodes that do not act -/

section Other

variable (hne : n ≠ m) (g : History.Grows m h h')
include hne g

theorem Voted.other {term votedFor : Nat} (hv : Voted h n term votedFor) :
    Voted h' n term votedFor := by
  unfold Voted
  rw [g.term_ne n hne, g.vote_ne n hne]
  exact hv

theorem Reigns.other (hr : Reigns h n) : Reigns h' n := by
  unfold Reigns
  rw [g.term_ne n hne]
  exact Reigns.grow_at hr g

theorem Reigns.of_other (hr : Reigns h' n) : Reigns h n := by
  obtain ⟨r, hr, hw⟩ := hr
  rw [g.term_ne n hne] at hr
  exact ⟨r, g.lead_of_ne hr (by rwa [hw]), hw⟩

theorem RoleInv.other {M : Mode} {peers : List Nat} {state : State} {voteMask : Word}
    {matchIndex : Nat → Nat} (hr : RoleInv M h n peers state voteMask matchIndex) :
    RoleInv M h' n peers state voteMask matchIndex := by
  cases state with
  | follower => trivial
  | candidate =>
    obtain ⟨hc, hno, hvotes⟩ := hr
    unfold RoleInv
    rw [g.term_ne n hne, g.log_ne n hne, g.commit_ne n hne, g.cand_ne n hne]
    exact ⟨hc, fun hr => hno (Reigns.of_other hne g hr), fun id hid => g.vote' (hvotes id hid)⟩
  | leader =>
    obtain ⟨hr, hlen, hacks⟩ := hr
    refine ⟨Reigns.other hne g hr, ?_, fun ha p hp => ?_⟩
    · rw [g.term_ne n hne, g.log_ne n hne, g.ack_ne n hne]
      exact hlen
    · rw [g.term_ne n hne]
      exact Nat.le_trans (hacks ha p hp) (g.ack_le' p _)

theorem ReadInv.other {state : State} {context mask : Word} {index : Nat} {ready : Bool}
    (hr : ReadInv K h n state context mask index ready) :
    ReadInv K h' n state context mask index ready := by
  refine { leads := hr.leads, le := ?_, barrier := ?_ }
  · rw [g.commit_ne n hne]; exact hr.le
  · intro hf hc
    obtain ⟨h₀, hst, hlead, hterm, hready⟩ := hr.barrier hf hc
    refine ⟨h₀, hst, Reigns.grow_at hlead g, ?_, hready⟩
    rw [g.term_ne n hne, g.commit_ne n hne]
    exact hterm

theorem Dur.other {d : Durable} (hd : Dur K h n d) : Dur K h' n d := by
  refine {
    voted := Voted.other hne g hd.voted
    view := ?_
    commit_eq := ?_
    base_le := hd.base_le
    snapshot := ?_
    single := ?_
    reach := ?_ }
  · rw [g.log_ne n hne]; exact hd.view
  · rw [g.commit_ne n hne]; exact hd.commit_eq
  · exact hd.snapshot.imp_right fun hs => hs.grow g
  · rw [g.log_ne n hne, g.commit_ne n hne]; exact hd.single
  · rw [g.log_ne n hne]; exact hd.reach

theorem LiveAt.other {M : Mode} {j : Nat} {s : Node σ} (hl : LiveAt K n M j h s) :
    LiveAt K n M j h' s := by
  refine { hl with
    voted := Voted.other hne g hl.voted
    logged := ?_
    configured := ?_
    single := ?_
    role := RoleInv.other hne g hl.role
    read := ReadInv.other hne g hl.read
    out := fun msg hm => (hl.out msg hm).grow g
    dur := Dur.other hne g hl.dur }
  · rw [g.log_ne n hne, g.commit_ne n hne]; exact hl.logged
  · rw [g.log_ne n hne]; exact hl.configured
  · rw [g.log_ne n hne, g.commit_ne n hne]; exact hl.single

theorem Down.other {s : Node σ} (hd : Down K n h s) : Down K n h' s :=
  { own := hd.own, past := hd.past.grow g, commit_le := Nat.le_trans hd.commit_le (g.commit_le' n)
    running := hd.running, dur := Dur.other hne g hd.dur }

theorem Dead.other {s : Node σ} (hd : Dead K n h s) : Dead K n h' s :=
  { hd with toDown := Down.other hne g hd.toDown, settled := fun ht => (hd.settled ht).grow g }

theorem Good.other {s : Node σ} (hg : Good K n h s) : Good K n h' s :=
  hg.imp (LiveAt.other hne g) (Dead.other hne g)

end Other

/-! ## A running node has a past -/

theorem LiveAt.past {M : Mode} {j : Nat} {s : Node σ} (hs : Sane K h)
    (hl : LiveAt K n M j h s) : Past K h n s.log s.baseIndex s.commit s.applied := by
  refine ⟨h.log n, hl.logged.view, hs.valid.log_sound n, hl.logged.base_le, hl.logged.applied_le,
    ?_, ?_⟩
  · rw [← hl.logged.commit_eq]; exact hs.valid.commit_le n
  · rw [← hl.logged.commit_eq]; exact hs.valid.commit_committed n

theorem LiveAt.down {M : Mode} {j : Nat} {s : Node σ} (hs : Sane K h)
    (hl : LiveAt K n M j h s) : Down K n h s :=
  { own := ⟨hl.named.own, hl.named.voter⟩, past := hl.past hs
    commit_le := Nat.le_of_eq hl.logged.commit_eq.symm, running := fun _ => hl.running
    dur := hl.dur }

theorem LiveAt.settled {M : Mode} {s : Node σ} (hs : Sane K h) (hl : LiveAt K n M s.commit h s) :
    s.Settled K h n := by
  obtain ⟨hb, _, hlast⟩ := hl.synced
  refine ⟨by omega, h.log n, hl.logged.view, hs.valid.log_sound n, hl.logged.base_le,
    hl.logged.applied_le, ?_, ?_, hl.configured.1⟩
  · rw [← hl.logged.commit_eq]; exact hs.valid.commit_le n
  · rw [← hl.logged.commit_eq]; exact hs.valid.commit_committed n

/-! ## Logs of a sane history -/

theorem Single.mono {x : List Entry} {k k' : Nat} (hx : Single K x k) (hk : k ≤ k') :
    Single K x k' :=
  fun a b ha => hx a b (Nat.lt_of_le_of_lt hk ha)

/-- A log that is cut at `i` and continued there. -/
theorem Single.replace {x : List Entry} {e : Entry} {i k : Nat} (hx : Single K x k)
    (hi : i ≤ x.length) (halone : IsConfig e → ∀ a ≤ i, K.P.ConfAt x a → a ≤ k) :
    Single K (x.take i ++ [e]) k := by
  have hlen : (x.take i).length = i := by simp [hi]
  intro a b ha hab hca hcb
  have hold : ∀ {c}, K.P.ConfAt (x.take i) c → c ≤ i ∧ K.P.ConfAt x c := fun hc => by
    have hle := hlen ▸ hc.le_length
    exact ⟨hle, (Protocol.confAt_take hle).mp hc⟩
  rcases confAt_concat.mp hcb with hb | ⟨hb, hnew⟩
  · rcases confAt_concat.mp hca with ha' | ⟨ha', _⟩
    · exact hx a b ha hab (hold ha').2 (hold hb).2
    · have := (hold hb).1
      omega
  · rcases confAt_concat.mp hca with ha' | ⟨ha', _⟩
    · have := halone hnew a (hold ha').1 (hold ha').2
      omega
    · omega

theorem Single.concat {x : List Entry} {e : Entry} {k : Nat} (hx : Single K x k)
    (halone : IsConfig e → ∀ a, K.P.ConfAt x a → a ≤ k) : Single K (x ++ [e]) k := by
  have := hx.replace (Nat.le_refl _) fun hce a _ => halone hce a
  rwa [List.take_length] at this

theorem sound_pre {x : List Entry} (hx : h.Sound K.P x) :
    x = [] ∨ ∃ t r, h.lead t = some r ∧ x <+: r.log := by
  by_cases h0 : x = []
  · exact Or.inl h0
  · obtain ⟨r, hr, hp⟩ := hx x.length (List.length_pos_of_ne_nil h0) (Nat.le_refl _)
    rw [List.take_length] at hp
    exact Or.inr ⟨_, r, hr, hp⟩

namespace Sane

variable (hs : Sane K h)
include hs

theorem log_wf {x : List Entry} (hx : h.Sound K.P x) : WellFormed K.voters x := by
  rcases sound_pre hx with rfl | ⟨t, r, hr, hp⟩
  · exact wellFormed_nil
  · exact (hs.wf t r hr).of_pre hp

theorem log_allowed {x : List Entry} (hx : h.Sound K.P x) : K.AllowsLog x := by
  rcases sound_pre hx with rfl | ⟨t, r, hr, hp⟩
  · intro y e hpre
    simpa using hpre.length_le
  · exact fun y e hpre => hs.allowed t r hr y e (hpre.trans hp)

theorem log_fixed {x : List Entry} (hf : ¬ K.reconf) (hx : h.Sound K.P x) :
    ∀ e ∈ x, ¬ IsConfig e := by
  intro e he hce
  obtain ⟨_, hallow⟩ := (hs.log_allowed hx).mem he
  exact hf (hallow.1 hce).1

/-- With fixed voters every log establishes the initial ones. -/
theorem config_fixed {x : List Entry} (hf : ¬ K.reconf) (hx : h.Sound K.P x) :
    configAfter K.voters x = (K.voters, 0) :=
  foldl_configStep_of_not_config (hs.log_fixed hf hx)

/-- In a closed setting every log establishes initial voters. -/
theorem config_within {x : List Entry} (hx : h.Sound K.P x) :
    K.Within ((configAfter K.voters x).1 ||| (configAfter K.voters x).2) := by
  intro hc
  refine List.foldlRecOn (motive := fun c : Word × Word => ∀ id, Member (c.1 ||| c.2) id →
    Member K.voters id) x configStep (fun id hid => ?_) fun c hbefore e he id hid => ?_
  · exact (member_or.mp hid).resolve_right fun h0 => member_ne_zero h0 rfl
  · by_cases hce : IsConfig e
    · obtain ⟨_, hallow⟩ := (hs.log_allowed hx).mem he
      refine (hallow.1 hce).2 hc id (member_or.mpr ?_)
      unfold configStep at hid
      rcases hce with hkind | hkind
      · rw [hkind] at hid
        exact member_or.mp hid
      · rw [hkind] at hid
        exact Or.inl ((member_or.mp hid).resolve_right fun h0 => member_ne_zero h0 rfl)
    · rw [configStep_of_not_config hce] at hid
      exact hbefore id hid

/-! ## Steps -/

theorem of_grows (g : History.Grows n h h') (hv : h'.Valid K.P)
    (hlead : ∀ t r, h'.lead t = some r →
      h.lead t = some r ∨ WellFormed K.voters r.log ∧
        K.AllowsLog r.log ∧ Member K.voters r.who) : Sane K h' where
  valid := hv
  wf t r hr := by
    rcases hlead t r hr with hold | hnew
    · exact hs.wf t r hold
    · exact hnew.1
  allowed t r hr := by
    rcases hlead t r hr with hold | hnew
    · exact hs.allowed t r hold
    · exact hnew.2.1
  voter t r hr := by
    rcases hlead t r hr with hold | hnew
    · exact hs.voter t r hold
    · exact hnew.2.2
  before a c h₀ hst := by
    obtain ⟨hv₀, hno, hle⟩ := hs.before a c h₀ hst
    exact ⟨hv₀, hno, fun p => Nat.le_trans (hle p) (g.term_le' p)⟩

theorem bump {t : Nat} (ht : h.term n ≤ t) : Sane K (h.bump n t) :=
  hs.of_grows (History.grows_bump ht) (hs.valid.bump ht) fun _ _ => Or.inl

theorem castVote {c : Nat} {x : List Entry} {k : Nat} (hno : h.vote n (h.term n) = none)
    (hc : h.cand c (h.term n) = some (x, k)) (hup : K.P.UpToDate x (h.log n)) :
    Sane K (h.castVote n c) :=
  hs.of_grows (History.grows_castVote hno) (hs.valid.castVote hno hc hup) fun _ _ => Or.inl

theorem grows_stand {t : Nat} (ht : h.term n < t) : History.Grows n h (h.stand n t) :=
  History.grows_stand (Nat.le_of_lt ht) (hs.valid.vote_none ht) (hs.valid.cand_none ht)

theorem stand {t : Nat} (ht : h.term n < t) : Sane K (h.stand n t) :=
  hs.of_grows (hs.grows_stand ht) (hs.valid.stand ht) fun _ _ => Or.inl

theorem elect (hn : Member K.voters n) (hno : h.lead (h.term n) = none)
    (hc : h.cand n (h.term n) = some (h.log n, h.commit n))
    (hQ : K.P.Effective (h.log n) (h.commit n) {m | h.vote m (h.term n) = some n}) :
    Sane K (h.elect n) := by
  refine hs.of_grows (History.grows_elect hno) (hs.valid.elect hno hc hQ) ?_
  intro t r hr
  by_cases ht : t = h.term n
  · subst ht
    simp only [History.elect, Function.update_self, Option.some.injEq] at hr
    subst hr
    exact Or.inr ⟨hs.log_wf (hs.valid.log_sound n), hs.log_allowed (hs.valid.log_sound n), hn⟩
  · exact Or.inl (by simpa [History.elect, ht] using hr)

theorem extend {t : Nat} {r : Reign Nat Entry} {e : Entry} (hr : h.lead t = some r)
    (ht : h.term r.who = t) (he : e.term = t)
    (hfit : Fits (configAfter K.voters r.log) e)
    (hconf : IsConfig e → ∀ a, K.P.ConfAt r.log a → a ≤ h.commit r.who)
    (hallow : K.Allows r.log e) : Sane K (h.extend t r e) := by
  refine hs.of_grows (History.grows_extend hr) (hs.valid.extend hr ht he hconf) ?_
  intro u q hq
  by_cases hu : u = t
  · subst hu
    simp only [History.extend, Function.update_self, Option.some.injEq] at hq
    subst hq
    exact Or.inr ⟨(hs.wf u r hr).concat hfit, (hs.allowed u r hr).concat hallow, hs.voter u r hr⟩
  · exact Or.inl (by simpa [History.extend, hu] using hq)

theorem accept {r : Reign Nat Entry} {z : List Entry} (hr : h.lead (h.term n) = some r)
    (hz : z <+: r.log) : Sane K (h.relog n (History.adopt z (h.log n))) :=
  hs.of_grows (History.grows_relog _) (hs.valid.accept hr hz) fun _ _ => Or.inl

theorem install {z : List Entry} (hz : h.Committed (h.term n) z) :
    Sane K (h.relog n (History.adopt z (h.log n))) :=
  hs.of_grows (History.grows_relog _) (hs.valid.install hz) fun _ _ => Or.inl

theorem raise {r : Reign Nat Entry} {k : Nat} (hr : h.lead (h.term n) = some r)
    (hk : k ≤ r.log.length) (hp : r.log.take k <+: h.log n) : Sane K (h.raise n k) :=
  hs.of_grows (History.grows_raise k) (hs.valid.raise hr hk hp) fun _ _ => Or.inl

theorem choose {t i : Nat} {r : Reign Nat Entry} (hr : h.lead t = some r)
    (ht : h.term r.who = t) (hlt : h.commit r.who < i) (hi : i ≤ r.log.length)
    (hti : K.P.termAt r.log i = t)
    (hE : K.P.Effective (r.log.take i) (h.commit r.who) {n | i ≤ h.ack n t}) :
    Sane K (h.choose t r i) :=
  hs.of_grows (History.grows_choose (Nat.le_of_lt hlt)) (hs.valid.choose hr ht hlt hi hti hE)
    fun _ _ => Or.inl

theorem learn {i : Nat} (hle : h.commit n ≤ i) (hi : i ≤ (h.log n).length)
    (hc : h.Committed (h.term n) ((h.log n).take i)) : Sane K (h.learn n i) :=
  hs.of_grows (History.grows_learn hle) (hs.valid.learn hle hi (hc.known hi)) fun _ _ => Or.inl

end Sane

end Promtact.Raft
