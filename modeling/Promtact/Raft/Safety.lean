import Promtact.Raft.Simulation

/-!
# Safety of a cluster

What holds in every run of a cluster, read off the history that the cluster
simulates: committed entries never change, a term has one leader, and logs with
the same term at an index are the same up to it. The first part is for fixed
voters, with compaction and snapshot transfer; the second for voters that change
by joint consensus.
-/

namespace Promtact.Raft

open QuorumLog
open Function (update)

variable {σ : Type} [LawfulStore σ] {K : Setting σ} {n : Nat}
variable {h h' : History Nat Entry} {s s' : Node σ} {c c' : Cluster σ}

/-! ## What a cluster shows -/

/-- The entry at an index at or below the commit index, above the base. -/
def Node.committedEntry (s : Node σ) (i : Nat) : Option Entry :=
  if s.baseIndex < i ∧ i ≤ s.commit then s.entryAt? i else none

/-- The term at an index at or below the commit index; the base counts. -/
def Node.committedTerm (s : Node σ) (i : Nat) : Option Nat :=
  if i ≤ s.commit then s.termAt i else none

namespace Cluster

/-- Some node holds the entry at or below its commit index, or has applied it. -/
def Shows (c : Cluster σ) (i : Nat) (e : Entry) : Prop :=
  (∃ id s, (c.procs id).node? = some s ∧ s.committedEntry i = some e) ∨
    ∃ a ∈ c.applied, a.index = i ∧ a.entry = e

/-- Some node holds an entry of the term at or below its commit index; the base of
a compacted log counts. -/
def ShowsTerm (c : Cluster σ) (i t : Nat) : Prop :=
  ∃ id s, (c.procs id).node? = some s ∧ s.committedTerm i = some t

/-- The node leads a term. -/
def Leads (c : Cluster σ) (id t : Nat) : Prop :=
  match c.procs id with
  | .up s => s.state = .leader ∧ s.term = t
  | _ => False

instance (c : Cluster σ) (id t : Nat) : Decidable (c.Leads id t) := by
  unfold Leads
  split <;> infer_instance

end Cluster

theorem Sim.shows (hsim : Sim K c h) {i : Nat} {e : Entry} (hs : c.Shows i e) :
    ∃ t y, h.Committed t y ∧ 0 < i ∧ y[i - 1]? = some e := by
  rcases hs with ⟨id, s, hn, he⟩ | ⟨a, ha, rfl, rfl⟩
  · obtain ⟨⟨hb, hi⟩, he⟩ := Option.ite_none_right_eq_some.mp he
    obtain ⟨y, hy, h0, hy'⟩ := (ProcInv.down hsim.sane (hsim.procs id) hn).shows hb hi he
    exact ⟨_, y, hy, h0, hy'⟩
  · exact hsim.applied a ha

theorem Sim.showsTerm (hsim : Sim K c h) {i t : Nat} (hs : c.ShowsTerm i t) :
    ∃ u y, h.Committed u y ∧ i ≤ y.length ∧ K.P.termAt y i = t := by
  obtain ⟨id, s, hn, ht⟩ := hs
  obtain ⟨hi, ht⟩ := Option.ite_none_right_eq_some.mp ht
  obtain ⟨x, hview, _, _, _, hcx, hcom⟩ := (ProcInv.down hsim.sane (hsim.procs id) hn).past
  obtain ⟨_, _, ht⟩ := hview.termAt_eq_some.mp ht
  refine ⟨_, x.take s.commit, hcom, ?_, ?_⟩
  · rw [List.length_take]
    omega
  · rw [← ht, Protocol.termAt_take hi]

theorem Sim.leads (hsim : Sim K c h) {id t : Nat} (hl : c.Leads id t) :
    ∃ r, h.lead t = some r ∧ r.who = id := by
  have hgood := hsim.procs id
  unfold Cluster.Leads at hl
  split at hl
  · rename_i s hup
    obtain ⟨hstate, rfl⟩ := hl
    rw [hup] at hgood
    have hlive := Good.live hgood hstate
    rw [← hlive.voted.1]
    exact hlive.reigns hstate
  · exact hl.elim

/-! ## Agreement across a run -/

section Agreement

variable {c₁ c₂ : Cluster σ} {h₁ h₂ : History Nat Entry} (hsim₁ : Sim K c₁ h₁)
  (hsim₂ : Sim K c₂ h₂) (hlater : History.Later h₁ h₂)
include hsim₁ hsim₂ hlater

/-- Two moments of a run show the same entry at an index. -/
theorem Sim.agree {i : Nat} {e₁ e₂ : Entry} (hs₁ : c₁.Shows i e₁) (hs₂ : c₂.Shows i e₂) :
    e₁ = e₂ := by
  obtain ⟨t₁, y₁, hy₁, _, he₁⟩ := hsim₁.shows hs₁
  obtain ⟨t₂, y₂, hy₂, _, he₂⟩ := hsim₂.shows hs₂
  have he := hsim₂.sane.valid.committed_getElem (hlater.committed hy₁) hy₂ he₁
    (List.getElem?_eq_some_iff.mp he₂).1
  rw [he₂] at he
  exact Option.some.inj he.symm

/-- Two moments of a run show the same term at an index. -/
theorem Sim.agreeTerm {i t₁ t₂ : Nat} (hs₁ : c₁.ShowsTerm i t₁) (hs₂ : c₂.ShowsTerm i t₂) :
    t₁ = t₂ := by
  obtain ⟨u₁, y₁, hy₁, hi₁, ht₁⟩ := hsim₁.showsTerm hs₁
  obtain ⟨u₂, y₂, hy₂, hi₂, ht₂⟩ := hsim₂.showsTerm hs₂
  rw [← ht₁, ← ht₂]
  rcases hsim₂.sane.valid.committed_agree (hlater.committed hy₁) hy₂ with hp | hp
  · rw [Protocol.termAt_of_pre hp hi₁]
  · rw [Protocol.termAt_of_pre hp hi₂]

/-- A term has one leader at all moments of a run. -/
theorem Sim.leader_unique {a b t : Nat} (ha : c₁.Leads a t) (hb : c₂.Leads b t) : a = b := by
  obtain ⟨r, hr, hw⟩ := hlater.lead (hsim₁.leads ha)
  obtain ⟨q, hq, hw'⟩ := hsim₂.leads hb
  rw [hr] at hq
  cases hq
  rw [← hw, ← hw']

end Agreement

/-! ## Fixed voters -/

/-- The event changes the voters. -/
def Event.reconfigures : Event → Bool
  | .op _ (.proposeJoint _) => true
  | .op _ .proposeFinal => true
  | _ => false

/-- Fixed voters, any snapshots, stores that may fail. -/
def fixedSetting (σ : Type) [LawfulStore σ] (voters : Word) : Setting σ where
  voters := voters
  reconf := False
  orderly := False
  Image _ _ := True
  fresh := False
  started _ _ := none
  reliable := False
  reliable_store := store_of_never
  reliable_orderly := orderly_of_never
  fresh_fixed := fixed_of_never

theorem fixed_eventSafe {voters : Word} {ev : Event} (hev : ev.reconfigures = false) :
    EventSafe (fixedSetting σ voters) c h ev := by
  cases ev with
  | restart id peers timeout => exact False.elim
  | op id op =>
    cases op with
    | step m => exact fun _ _ => ⟨False.elim, False.elim, False.elim, False.elim, fun _ _ _ _ _ _ _ => trivial⟩
    | proposeJoint ids => cases hev
    | propose command => exact fun _ _ _ => trivial
    | proposeRequest operation clientID requestID key value => exact fun _ _ _ => trivial
    | startReadIndex context => exact False.elim
    | transferLeadership target => exact False.elim
    | compact index state =>
      exact fun s _ _ _ => { image := fun _ _ _ => trivial, own := fun _ _ _ => trivial
                             plain := False.elim }
    | _ => trivial

theorem always_of_forall {voters : Word} {p : Event → Prop} {events : List Event}
    (hp : ∀ ev ∈ events, p ev) : c.Always voters (fun _ => p) events := by
  induction events generalizing c with
  | nil => trivial
  | cons ev events ih =>
    exact ⟨hp ev List.mem_cons_self, fun c' _ => ih fun e he => hp e (List.mem_cons_of_mem ev he)⟩

/-- A run with fixed voters simulates a history. -/
theorem Sim.run_fixed {voters : Word} {events : List Event}
    (hsim : Sim (fixedSetting σ voters) c h) (hev : ∀ ev ∈ events, ev.reconfigures = false)
    (hrun : c.run voters events = some c') :
    ∃ h', Sim (fixedSetting σ voters) c' h' ∧ History.Later h h' :=
  hsim.run (K := fixedSetting σ voters) (p := fun _ ev => ev.reconfigures = false)
    (fun _ _ _ _ hev => fixed_eventSafe hev) (always_of_forall hev) hrun

/-- State-machine safety: whatever two moments of a run show at an index at or
below a commit index is the same. A run is any sequence of operations, deliveries
and restarts in which no change of voters is proposed; logs may be compacted,
snapshots sent, and store calls may fail. -/
theorem state_machine_safety {voters : Word} {c₀ c₁ c₂ : Cluster σ} {before after : List Event}
    (hinit : c₀.Initial voters) (hev : ∀ ev ∈ before ++ after, ev.reconfigures = false)
    (hrun₁ : c₀.run voters before = some c₁) (hrun₂ : c₁.run voters after = some c₂) (i : Nat) :
    (∀ e₁ e₂, c₁.Shows i e₁ → c₂.Shows i e₂ → e₁ = e₂) ∧
      ∀ t₁ t₂, c₁.ShowsTerm i t₁ → c₂.ShowsTerm i t₂ → t₁ = t₂ := by
  obtain ⟨h₁, hsim₁, _⟩ := (hinit.sim (K := fixedSetting σ voters) fun _ _ => rfl).run_fixed
    (fun ev he => hev ev (List.mem_append_left _ he)) hrun₁
  obtain ⟨h₂, hsim₂, hlater⟩ := hsim₁.run_fixed
    (fun ev he => hev ev (List.mem_append_right _ he)) hrun₂
  exact ⟨fun _ _ => hsim₁.agree hsim₂ hlater, fun _ _ => hsim₁.agreeTerm hsim₂ hlater⟩

/-! A run in which node 1 is elected by node 2 and commits the first entry; then
node 2 learns of it, node 1 compacts, and node 2 restarts and applies. -/

def threeNodes : Cluster Disk := .start [1, 2, 3] (fun id => id) {}

theorem threeNodes_initial : threeNodes.Initial 7 := Cluster.start_initial rfl (by decide)

def electionRun : List Event :=
  threeNodes.schedule 7 [.act 1 .tick, .deliver 0, .deliver 2, .deliver 3, .deliver 5, .deliver 6,
    .deliver 8, .deliver 9, .deliver 10, .deliver 11, .act 1 .applyEntries,
    .act 1 (.compact 1 [7]), .restart 2 [1, 3] 2, .act 2 .applyEntries]

theorem electionRun_fixed :
    ∀ ev ∈ electionRun.take 18 ++ electionRun.drop 18, ev.reconfigures = false := by
  decide +kernel

theorem state_machine_safety_electionRun : ∃ (c₁ c₂ : Cluster Disk) (e₁ e₂ : Entry),
    threeNodes.run 7 (electionRun.take 18) = some c₁ ∧
    c₁.run 7 (electionRun.drop 18) = some c₂ ∧ c₁.Shows 1 e₁ ∧ c₂.Shows 1 e₂ ∧ e₁ = e₂ := by
  obtain ⟨c₁, c₂, hc₁, hc₂, hone, htwo⟩ := threeNodes.run_check 7
    (electionRun.take 18) (electionRun.drop 18) (fun c₁ c₂ =>
      (c₁.procs 1).node?.bind (·.committedEntry 1) = some { term := 1, kind := .noop } ∧
      (c₂.procs 2).node?.bind (·.committedEntry 1) = some { term := 1, kind := .noop })
    (by decide +kernel)
  obtain ⟨s₁, hs₁, hone⟩ := Option.bind_eq_some_iff.mp hone
  obtain ⟨s₂, hs₂, htwo⟩ := Option.bind_eq_some_iff.mp htwo
  have hshow₁ : c₁.Shows 1 _ := Or.inl ⟨1, s₁, hs₁, hone⟩
  have hshow₂ : c₂.Shows 1 _ := Or.inl ⟨2, s₂, hs₂, htwo⟩
  exact ⟨c₁, c₂, _, _, hc₁, hc₂, hshow₁, hshow₂,
    (state_machine_safety threeNodes_initial electionRun_fixed hc₁ hc₂ 1).1 _ _ hshow₁ hshow₂⟩

/-- Election safety: each term has at most one leader over a whole run in which no
change of voters is proposed. -/
theorem election_safety {voters : Word} {c₀ c₁ c₂ : Cluster σ} {before after : List Event}
    (hinit : c₀.Initial voters) (hev : ∀ ev ∈ before ++ after, ev.reconfigures = false)
    (hrun₁ : c₀.run voters before = some c₁) (hrun₂ : c₁.run voters after = some c₂)
    {a b t : Nat} (ha : c₁.Leads a t) (hb : c₂.Leads b t) : a = b := by
  obtain ⟨h₁, hsim₁, _⟩ := (hinit.sim (K := fixedSetting σ voters) fun _ _ => rfl).run_fixed
    (fun ev he => hev ev (List.mem_append_left _ he)) hrun₁
  obtain ⟨h₂, hsim₂, hlater⟩ := hsim₁.run_fixed
    (fun ev he => hev ev (List.mem_append_right _ he)) hrun₂
  exact hsim₁.leader_unique hsim₂ hlater ha hb

theorem election_safety_electionRun : ∃ (c₁ c₂ : Cluster Disk) (a b : Nat),
    threeNodes.run 7 (electionRun.take 18) = some c₁ ∧
    c₁.run 7 (electionRun.drop 18) = some c₂ ∧ c₁.Leads a 1 ∧ c₂.Leads b 1 ∧ a = b := by
  obtain ⟨c₁, c₂, hc₁, hc₂, hone, htwo⟩ := threeNodes.run_check 7
    (electionRun.take 18) (electionRun.drop 18) (fun c₁ c₂ => c₁.Leads 1 1 ∧ c₂.Leads 1 1) (by decide +kernel)
  exact ⟨c₁, c₂, 1, 1, hc₁, hc₂, hone, htwo,
    election_safety threeNodes_initial electionRun_fixed hc₁ hc₂ hone htwo⟩

/-- The logs that two nodes of a cluster stand for. -/
theorem Sim.matching (hsim : Sim K c h) {a b i : Nat} {s₁ s₂ : Node σ}
    (ha : (c.procs a).node? = some s₁) (hb : (c.procs b).node? = some s₂)
    (hi : max s₁.baseIndex s₂.baseIndex ≤ i) (hi₁ : i ≤ s₁.lastIndex) (hi₂ : i ≤ s₂.lastIndex)
    (ht : s₁.termAt i = s₂.termAt i) :
    ∃ x₁ x₂, View K.voters x₁ s₁.baseIndex s₁.log ∧ View K.voters x₂ s₂.baseIndex s₂.log ∧
      i ≤ x₁.length ∧ i ≤ x₂.length ∧ x₁.take i = x₂.take i := by
  obtain ⟨x₁, hview₁, hsound₁, _⟩ := (ProcInv.down hsim.sane (hsim.procs a) ha).past
  obtain ⟨x₂, hview₂, hsound₂, _⟩ := (ProcInv.down hsim.sane (hsim.procs b) hb).past
  rw [hview₁.lastIndex] at hi₁
  rw [hview₂.lastIndex] at hi₂
  rw [hview₁.termAt (by omega) hi₁, hview₂.termAt (by omega) hi₂] at ht
  exact ⟨x₁, x₂, hview₁, hview₂, hi₁, hi₂,
    hsound₁.matching hsound₂ hi₁ hi₂ (Option.some.inj ht)⟩

/-- Log matching: two logs with the same term at an index hold the same entries
up to it, and agree on the term of the larger base. -/
theorem log_matching {voters : Word} {c₀ c : Cluster σ} {events : List Event}
    (hinit : c₀.Initial voters) (hev : ∀ ev ∈ events, ev.reconfigures = false)
    (hrun : c₀.run voters events = some c) {a b i : Nat} {s₁ s₂ : Node σ}
    (ha : (c.procs a).node? = some s₁) (hb : (c.procs b).node? = some s₂)
    (hi : max s₁.baseIndex s₂.baseIndex < i) (hi₁ : i ≤ s₁.lastIndex) (hi₂ : i ≤ s₂.lastIndex)
    (ht : s₁.termAt i = s₂.termAt i) :
    (∀ j, max s₁.baseIndex s₂.baseIndex < j → j ≤ i →
      ∃ e, s₁.entryAt? j = some e ∧ s₂.entryAt? j = some e) ∧
    ∃ t, s₁.termAt (max s₁.baseIndex s₂.baseIndex) = some t ∧
      s₂.termAt (max s₁.baseIndex s₂.baseIndex) = some t := by
  obtain ⟨h, hsim, _⟩ := (hinit.sim (K := fixedSetting σ voters) fun _ _ => rfl).run_fixed hev hrun
  obtain ⟨x₁, x₂, hview₁, hview₂, hlen₁, hlen₂, htake⟩ :=
    hsim.matching ha hb (Nat.le_of_lt hi) hi₁ hi₂ ht
  refine ⟨fun j hj hji => ?_, ?_⟩
  · have hlt : j - 1 < x₁.length := by omega
    have hsame : x₁[j - 1]? = x₂[j - 1]? := by
      rw [← List.getElem?_take_of_lt (show j - 1 < i by omega), htake,
        List.getElem?_take_of_lt (by omega)]
    rw [hview₁.entryAt? (by omega) (by omega), hview₂.entryAt? (by omega) (by omega), ← hsame]
    exact ⟨x₁[j - 1], List.getElem?_eq_getElem hlt, List.getElem?_eq_getElem hlt⟩
  · rw [hview₁.termAt (by omega) (by omega), hview₂.termAt (by omega) (by omega),
      Protocol.termAt_eq_of_take htake (Nat.le_of_lt hi)]
    exact ⟨_, rfl, rfl⟩

theorem log_matching_electionRun : ∃ (c : Cluster Disk) (s₁ s₂ : Node Disk),
    threeNodes.run 7 (electionRun.take 18) = some c ∧ (c.procs 1).node? = some s₁ ∧
    (c.procs 2).node? = some s₂ ∧ ∃ e, s₁.entryAt? 1 = some e ∧ s₂.entryAt? 1 = some e := by
  obtain ⟨c, _, hc, _, hone, htwo⟩ := threeNodes.run_check 7 (electionRun.take 18) []
    (fun c _ =>
      (c.procs 1).node?.map (fun s => (s.baseIndex, s.lastIndex, s.termAt 1)) = some (0, 1, some 1) ∧
      (c.procs 2).node?.map (fun s => (s.baseIndex, s.lastIndex, s.termAt 1)) = some (0, 1, some 1))
    (by decide +kernel)
  obtain ⟨s₁, hs₁, hone⟩ := Option.map_eq_some_iff.mp hone
  obtain ⟨s₂, hs₂, htwo⟩ := Option.map_eq_some_iff.mp htwo
  simp only [Prod.mk.injEq] at hone htwo
  have hmax : max s₁.baseIndex s₂.baseIndex < 1 := by omega
  exact ⟨c, s₁, s₂, hc, hs₁, hs₂, (log_matching threeNodes_initial
    (fun ev he => electionRun_fixed ev (List.mem_append_left _ he)) hc hs₁ hs₂ hmax (by omega)
    (by omega) (hone.2.2.trans htwo.2.2.symm)).1 1 hmax (Nat.le_refl 1)⟩

/-! ## Changing voters -/

/-- The event compacts a log or installs a snapshot. -/
def Event.transfersState : Event → Bool
  | .op _ (.compact ..) => true
  | .op _ (.step m) => m.type = .installSnapshot
  | _ => false

/-- Changing voters, stores that may fail. -/
def jointSetting (σ : Type) [LawfulStore σ] (voters : Word) : Setting σ where
  voters := voters
  reconf := True
  orderly := False
  Image _ _ := True
  fresh := False
  started _ _ := none
  reliable := False
  reliable_store := store_of_never
  reliable_orderly := orderly_of_never
  fresh_fixed := fixed_of_never

theorem joint_eventSafe {voters : Word} {ev : Event} (hev : ev.transfersState = false) :
    EventSafe (jointSetting σ voters) c h ev := by
  cases ev with
  | restart id peers timeout => exact fun _ => False.elim
  | op id op =>
    cases op with
    | step m =>
      exact fun s _ => ⟨fun _ _ htype => absurd htype (of_decide_eq_false hev), False.elim,
        False.elim, False.elim, fun _ _ _ _ _ _ _ => trivial⟩
    | proposeJoint ids => exact ⟨trivial, False.elim⟩
    | propose command => exact fun _ _ _ => trivial
    | proposeRequest operation clientID requestID key value => exact fun _ _ _ => trivial
    | startReadIndex context => exact False.elim
    | transferLeadership target => exact False.elim
    | compact index state => cases hev
    | _ => trivial

theorem Sim.run_joint {voters : Word} {events : List Event}
    (hsim : Sim (jointSetting σ voters) c h) (hev : ∀ ev ∈ events, ev.transfersState = false)
    (hrun : c.run voters events = some c') :
    ∃ h', Sim (jointSetting σ voters) c' h' ∧ History.Later h h' :=
  hsim.run (K := jointSetting σ voters) (p := fun _ ev => ev.transfersState = false)
    (fun _ _ _ _ hev => joint_eventSafe hev) (always_of_forall hev) hrun

/-- Joint consensus is safe over any number of changes of voters: a term has one
leader, and nodes agree on every committed entry. No log is compacted in the run and
no snapshot is delivered. -/
theorem joint_consensus_safety {voters : Word} {c₀ c₁ c₂ : Cluster σ}
    {before after : List Event} (hinit : c₀.Initial voters)
    (hev : ∀ ev ∈ before ++ after, ev.transfersState = false)
    (hrun₁ : c₀.run voters before = some c₁) (hrun₂ : c₁.run voters after = some c₂) :
    (∀ a b t, c₁.Leads a t → c₂.Leads b t → a = b) ∧
      ∀ i e₁ e₂, c₁.Shows i e₁ → c₂.Shows i e₂ → e₁ = e₂ := by
  obtain ⟨h₁, hsim₁, _⟩ := (hinit.sim (K := jointSetting σ voters) fun _ _ => rfl).run_joint
    (fun ev he => hev ev (List.mem_append_left _ he)) hrun₁
  obtain ⟨h₂, hsim₂, hlater⟩ := hsim₁.run_joint
    (fun ev he => hev ev (List.mem_append_right _ he)) hrun₂
  exact ⟨fun _ _ _ => hsim₁.leader_unique hsim₂ hlater, fun _ _ _ => hsim₁.agree hsim₂ hlater⟩

/-! The leader removes itself: node 1 commits the joint and the final entry of
the voters 2 and 3 and steps down, and node 2 is elected by node 3. -/

def removalRun : List Event :=
  threeNodes.schedule 7 [.act 1 .tick, .deliver 0, .deliver 2, .deliver 3, .deliver 5, .deliver 6,
    .deliver 8, .deliver 9, .deliver 10, .deliver 7, .deliver 11, .act 1 (.proposeJoint [2, 3]),
    .deliver 13, .deliver 15, .deliver 16, .deliver 18, .deliver 17, .deliver 20, .deliver 21,
    .deliver 22, .deliver 23, .deliver 24, .act 1 .proposeFinal, .deliver 27, .deliver 28,
    .deliver 29, .deliver 30, .act 3 .tick, .act 3 .tick, .act 3 .tick, .act 2 .tick,
    .act 2 .tick, .deliver 34, .deliver 35, .deliver 37, .deliver 38, .deliver 40, .deliver 41,
    .deliver 42, .deliver 43]

theorem joint_consensus_safety_removalRun : ∃ (c₁ c₂ : Cluster Disk) (e₁ e₂ : Entry),
    threeNodes.run 7 (removalRun.take 54) = some c₁ ∧ c₁.run 7 (removalRun.drop 54) = some c₂ ∧
    c₂.Leads 2 2 ∧ c₁.Shows 3 e₁ ∧ c₂.Shows 3 e₂ ∧ e₁ = e₂ := by
  obtain ⟨c₁, c₂, hc₁, hc₂, hleads, hone, htwo⟩ := threeNodes.run_check 7
    (removalRun.take 54) (removalRun.drop 54) (fun c₁ c₂ => c₂.Leads 2 2 ∧
      (c₁.procs 1).node?.bind (·.committedEntry 3) =
        some { term := 1, kind := .finalConfig, oldVoters := 6 } ∧
      (c₂.procs 2).node?.bind (·.committedEntry 3) =
        some { term := 1, kind := .finalConfig, oldVoters := 6 }) (by decide +kernel)
  obtain ⟨s₁, hs₁, hone⟩ := Option.bind_eq_some_iff.mp hone
  obtain ⟨s₂, hs₂, htwo⟩ := Option.bind_eq_some_iff.mp htwo
  have hshow₁ : c₁.Shows 3 _ := Or.inl ⟨1, s₁, hs₁, hone⟩
  have hshow₂ : c₂.Shows 3 _ := Or.inl ⟨2, s₂, hs₂, htwo⟩
  exact ⟨c₁, c₂, _, _, hc₁, hc₂, hleads, hshow₁, hshow₂,
    (joint_consensus_safety threeNodes_initial (by decide +kernel) hc₁ hc₂).2 3 _ _ hshow₁ hshow₂⟩

/-! ## Leader completeness -/

section Completeness

variable {c₁ c₂ : Cluster σ} {a b i : Nat} {l : Node σ} {e : Entry} (ha : c₁.procs a = .up s)
  (hrunning : s.faulted = false) (he : s.committedEntry i = some e) (hb : c₂.procs b = .up l)
  (hstate : l.state = .leader) (hterm : s.term ≤ l.term)
include ha hrunning he hb hstate hterm

/-- A leader holds what was committed in its term or before. -/
theorem Sim.leader_holds {h₁ h₂ : History Nat Entry} (hsim₁ : Sim K c₁ h₁) (hsim₂ : Sim K c₂ h₂)
    (hlater : History.Later h₁ h₂) :
    i ≤ l.lastIndex ∧ (l.baseIndex < i → l.entryAt? i = some e) := by
  obtain ⟨⟨hbase, hcommit⟩, he⟩ := Option.ite_none_right_eq_some.mp he
  have hgood₁ := hsim₁.procs a
  have hgood₂ := hsim₂.procs b
  rw [ha] at hgood₁
  rw [hb] at hgood₂
  obtain ⟨y, hy, hpos, hentry⟩ := (Good.down hsim₁.sane hgood₁).shows hbase hcommit he
  have hs : s.term = h₁.term a := by
    rcases hgood₁ with hlive | hdead
    · exact hlive.voted.1.symm
    · rw [hdead.stopped] at hrunning
      cases hrunning
  have hlive := Good.live hgood₂ hstate
  obtain ⟨r, hr, rfl⟩ := hlive.reigns hstate
  have hle : h₁.term a ≤ h₂.term r.who := by
    rw [← hs, hlive.voted.1]
    exact hterm
  -- what is committed is a prefix of the log of the reign, and that is the leader's own
  have hpre : y <+: h₂.log r.who := by
    rw [hsim₂.sane.valid.lead_log hr rfl]
    exact hsim₂.sane.valid.committed_lead hr ((hlater.committed hy).later hle)
  have hheld := getElem?_of_pre hpre hentry
  have hlen : i ≤ (h₂.log r.who).length := by
    have := (List.getElem?_eq_some_iff.mp hheld).1
    omega
  refine ⟨by rw [hlive.logged.view.lastIndex]; exact hlen, fun hbase' => ?_⟩
  rw [hlive.logged.view.entryAt? hbase' hlen]
  exact hheld

/-- Leader completeness: an entry that some node holds as committed is in the log of every
leader of that or a later term, at that moment and ever after. The voters may change, or logs
may be compacted and snapshots sent. -/
theorem leader_completeness {voters : Word} {c₀ : Cluster σ} {before after : List Event}
    (hinit : c₀.Initial voters)
    (hev : (∀ ev ∈ before ++ after, ev.reconfigures = false) ∨
      ∀ ev ∈ before ++ after, ev.transfersState = false)
    (hrun₁ : c₀.run voters before = some c₁) (hrun₂ : c₁.run voters after = some c₂) :
    i ≤ l.lastIndex ∧ (l.baseIndex < i → l.entryAt? i = some e) := by
  rcases hev with hev | hev
  · obtain ⟨h₁, hsim₁, _⟩ := (hinit.sim (K := fixedSetting σ voters) fun _ _ => rfl).run_fixed
      (fun ev he => hev ev (List.mem_append_left _ he)) hrun₁
    obtain ⟨h₂, hsim₂, hlater⟩ := hsim₁.run_fixed
      (fun ev he => hev ev (List.mem_append_right _ he)) hrun₂
    exact Sim.leader_holds ha hrunning he hb hstate hterm hsim₁ hsim₂ hlater
  · obtain ⟨h₁, hsim₁, _⟩ := (hinit.sim (K := jointSetting σ voters) fun _ _ => rfl).run_joint
      (fun ev he => hev ev (List.mem_append_left _ he)) hrun₁
    obtain ⟨h₂, hsim₂, hlater⟩ := hsim₁.run_joint
      (fun ev he => hev ev (List.mem_append_right _ he)) hrun₂
    exact Sim.leader_holds ha hrunning he hb hstate hterm hsim₁ hsim₂ hlater

end Completeness

theorem leader_completeness_removalRun : ∃ (c₁ c₂ : Cluster Disk) (s l : Node Disk) (e : Entry),
    threeNodes.run 7 (removalRun.take 54) = some c₁ ∧ c₁.run 7 (removalRun.drop 54) = some c₂ ∧
    c₁.procs 1 = .up s ∧ s.committedEntry 3 = some e ∧ c₂.procs 2 = .up l ∧
    l.state = .leader ∧ s.term < l.term ∧ 3 ≤ l.lastIndex := by
  obtain ⟨c₁, c₂, hc₁, hc₂, ⟨s, hs, hone⟩, l, hl, htwo⟩ := threeNodes.run_check 7
    (removalRun.take 54) (removalRun.drop 54) (fun c₁ c₂ =>
      (∃ s, c₁.procs 1 = .up s ∧ (s.term = 1 ∧ s.faulted = false ∧ s.committedEntry 3 =
        some { term := 1, kind := .finalConfig, oldVoters := 6 })) ∧
      ∃ l, c₂.procs 2 = .up l ∧ (l.state = .leader ∧ l.term = 2)) (by decide +kernel)
  have hlt : s.term < l.term := by
    rw [hone.1, htwo.2]
    decide
  exact ⟨c₁, c₂, s, l, _, hc₁, hc₂, hs, hone.2.2, hl, htwo.1, hlt,
    (leader_completeness hs hone.2.1 hone.2.2 hl htwo.1 hlt.le threeNodes_initial
      (Or.inr (by decide +kernel)) hc₁ hc₂).1⟩

end Promtact.Raft
