import Promtact.Raft.Restarting

/-!
# The cluster simulates the replicated log

`Sim` relates a cluster to a history. Every event of a cluster is a number of
steps of the history (`Sim.step`), so that every run is (`Sim.run`), and what a
cluster shows at one moment of a run still holds in the history of a later one
(`History.Later`).
-/

namespace Promtact.Raft

open QuorumLog GhostState
open Function (update)
open Node (indexes)

variable {σ : Type} [LawfulStore σ] {K : Setting σ} {n : Nat}
variable {h h' : History Nat Entry} {s s' : Node σ} {c c' : Cluster σ}

/-! ## The relation -/

/-- What a process stands for. -/
def ProcInv (K : Setting σ) (h : History Nat Entry) (id : Nat) : Proc σ → Prop
  | .absent => True
  | .up s => Good K id h s
  | .down s => Down K id h s

/-- An applied entry is committed. -/
def ApplicationInv (h : History Nat Entry) (a : Application) : Prop :=
  ∃ t y, h.Committed t y ∧ 0 < a.index ∧ y[a.index - 1]? = some a.entry

/-- The history supports the state of the cluster. -/
structure Sim (K : Setting σ) (c : Cluster σ) (h : History Nat Entry) : Prop where
  sane : Sane K h
  procs : ∀ id, ProcInv K h id (c.procs id)
  net : ∀ m ∈ c.net, MsgInv K h m
  applied : ∀ a ∈ c.applied, ApplicationInv h a

theorem ProcInv.other {id m : Nat} {p : Proc σ} (hne : id ≠ m) (g : History.Grows m h h')
    (hp : ProcInv K h id p) : ProcInv K h' id p := by
  cases p with
  | absent => trivial
  | up s => exact Good.other hne g hp
  | down s => exact Down.other hne g hp

/-- The process with a node has a past. -/
theorem ProcInv.down {id : Nat} {p : Proc σ} (hs : Sane K h) (hp : ProcInv K h id p)
    (hn : p.node? = some s) : Down K id h s := by
  cases p with
  | absent => cases hn
  | up n =>
    cases hn
    exact Good.down hs hp
  | down n =>
    cases hn
    exact hp

/-- What one node did, seen from the cluster. -/
theorem Sim.update (hsim : Sim K c h) {id : Nat} {p : Proc σ} (hs : Sane K h')
    (g : History.Grows id h h') (hp : ProcInv K h' id p) {net : List Message}
    (hnet : ∀ m ∈ net, MsgInv K h' m) {applied : List Application}
    (happlied : ∀ a ∈ applied, ApplicationInv h' a) :
    Sim K { procs := update c.procs id p, net := net, applied := applied } h' where
  sane := hs
  procs id' := by
    by_cases hid : id' = id
    · subst hid
      simpa using hp
    · simpa [hid] using ProcInv.other hid g (hsim.procs id')
  net := hnet
  applied := happlied

theorem ApplicationInv.grow {a : Application} {m : Nat} (ha : ApplicationInv h a)
    (g : History.Grows m h h') : ApplicationInv h' a := by
  obtain ⟨t, y, hy, h0, he⟩ := ha
  exact ⟨t, y, g.committed hy, h0, he⟩

/-! ## One event -/

/-- An entry at or below the commit index of a node, above its base. -/
theorem Down.shows (hd : Down K n h s) {i : Nat} {e : Entry} (hb : s.baseIndex < i)
    (hi : i ≤ s.commit) (he : s.entryAt? i = some e) :
    ∃ y, h.Committed (h.term n) y ∧ 0 < i ∧ y[i - 1]? = some e := by
  obtain ⟨x, hview, _, _, _, hcx, hcom⟩ := hd.past
  refine ⟨x.take s.commit, hcom, by omega, ?_⟩
  rw [List.getElem?_take_of_lt (by omega), ← hview.entryAt? hb (by omega)]
  exact he

theorem Good.applications (hs : Sane K h) (hg : Good K n h s) {a : Application}
    (ha : a ∈ s.applications) : ApplicationInv h a := by
  have hd := hg.down hs
  unfold Node.applications at ha
  rw [List.mem_filterMap] at ha
  obtain ⟨index, hmem, ha⟩ := ha
  obtain ⟨hlo, hhi⟩ := mem_indexes.mp hmem
  obtain ⟨entry, hentry, ha⟩ := Option.bind_eq_some_iff.mp ha
  split at ha
  · cases ha
    have hb : s.baseIndex ≤ s.applied := by
      obtain ⟨_, _, _, hb, _⟩ := hd.past
      exact hb
    obtain ⟨y, hy, h0, he⟩ := hd.shows (by omega) hhi hentry
    exact ⟨_, y, hy, h0, he⟩
  · cases ha

/-- What an event has to keep to. -/
def EventSafe (K : Setting σ) (c : Cluster σ) (h : History Nat Entry) : Event → Prop
  | .op id (.step m) => ∀ s, c.procs id = .up s → StepSafe K s m
  | .op id (.propose command) => ∀ s, c.procs id = .up s → s.state = .leader →
      K.Legal (h.log id) (s.commandEntry command)
  | .op id (.proposeRequest operation clientID requestID key value) => ∀ s, c.procs id = .up s →
      s.state = .leader → K.Legal (h.log id) (s.requestEntry operation clientID requestID key value)
  | .op _ (.proposeJoint ids) => K.reconf ∧ (K.closed → ∀ id ∈ ids, Member K.voters id)
  | .op _ (.transferLeadership target) => K.calm → 0 < target ∧ target ≤ 64
  | .op id (.startReadIndex context) => K.fresh → K.started id context = some h
  | .op id (.compact index state) => ∀ s, c.procs id = .up s → s.baseIndex < index →
      index ≤ s.applied → Compacts K h id s index state
  | .restart id _ _ => K.reconf → K.orderly → ∀ s, (c.procs id).node? = some s →
      K.neat ∨ K.tidy ∧ c.procs id = .up s ∧ s.faulted = false ∨
      (LawfulStore.durable s.store).settle.pendingConfigs.length ≤ 1
  | _ => True

/-- What a restart needs to know of the log. -/
theorem Sim.single (hsim : Sim K c h) {id : Nat} {peers : List Nat} {timeout : Nat}
    (hsafe : EventSafe K c h (.restart id peers timeout)) (hs : (c.procs id).node? = some s)
    (hrec : K.reconf) (hord : K.orderly)
    (hd : Dur K h' id (LawfulStore.durable s.store).settle)
    (hsame : (LawfulStore.durable s.store).base =
      (LawfulStore.durable s.store).snapshot.lastIndex → h' = h) :
    Single K (h'.log id) (h'.commit id) := by
  rcases hsafe hrec hord s hs with hneat | ⟨htidy, hup, hrun⟩ | hone
  · exact hd.single hneat
  · have hgood : Good K id h s := by
      have := hsim.procs id
      rwa [hup] at this
    have hl := hgood.resolve_right fun hdead => by
      rw [hdead.stopped] at hrun
      cases hrun
    rw [hsame hl.synced.2.2]
    exact hl.single htidy trivial
  · exact hd.single_of_pendingConfigs hone

theorem Sim.opSafe (hsim : Sim K c h) {id : Nat} {op : Op} (hup : c.procs id = .up s)
    (hdel : c.Deliverable id op) (hsafe : EventSafe K c h (.op id op)) :
    OpSafe K h id s op := by
  cases op with
  | step m => exact ⟨hsim.net m hdel.1, hdel.2, hsafe s hup⟩
  | propose command => exact hsafe s hup
  | proposeRequest operation clientID requestID key value => exact hsafe s hup
  | proposeJoint ids => exact hsafe
  | transferLeadership target => exact hsafe
  | startReadIndex context => exact hsafe
  | compact index state => exact hsafe s hup
  | _ => trivial

theorem Sim.execOp (hsim : Sim K c h) {id : Nat} {op : Op} (hup : c.procs id = .up s)
    (hop : OpSafe K h id s op) :
    ∃ h', Sim K (c.execOp id s op) h' ∧ History.Grows id h h' := by
  have hgood : Good K id h s := by
    have := hsim.procs id
    rwa [hup] at this
  have hw := wp_exec (g := ⟨h, hsim.sane⟩) hgood hop
  unfold Cluster.execOp
  cases hexec : op.exec s with
  | error e s' =>
    obtain ⟨g', hg, hd, _⟩ := hw.elim_error hexec
    exact ⟨g'.1, hsim.update (p := .down s') g'.2 hg hd (fun m hm => (hsim.net m hm).grow hg)
      (fun a ha => (hsim.applied a ha).grow hg), hg⟩
  | ok out s' =>
    obtain ⟨g', hg, hgood', hout⟩ := hw.elim_ok hexec
    refine ⟨g'.1, hsim.update (p := .up s') g'.2 hg hgood' ?_ ?_, hg⟩
    · cases out with
      | messages messages =>
        intro m hm
        rcases List.mem_append.mp hm with hold | hnew
        · exact (hsim.net m hold).grow hg
        · exact hout m hnew
      | nothing => exact fun m hm => (hsim.net m hm).grow hg
      | accepted ok => exact fun m hm => (hsim.net m hm).grow hg
      | entries entries => exact fun m hm => (hsim.net m hm).grow hg
    · intro a ha
      split at ha
      · rcases List.mem_append.mp ha with hold | hnew
        · exact (hsim.applied a hold).grow hg
        · exact (hgood.applications hsim.sane hnew).grow hg
      · exact (hsim.applied a ha).grow hg

/-- One event of the cluster is a number of steps of one node in the history. -/
theorem Sim.step (hsim : Sim K c h) {ev : Event} (hsafe : EventSafe K c h ev)
    (hstep : c.step K.voters ev = some c') : ∃ h', Sim K c' h' ∧ History.Later h h' := by
  cases ev with
  | op id op =>
    obtain ⟨s, hup, hdel, rfl⟩ := Cluster.step_op.mp hstep
    obtain ⟨h', hsim', hg⟩ := hsim.execOp hup (hsim.opSafe hup hdel hsafe)
    exact ⟨h', hsim', History.Later.of_grows hg⟩
  | restart id peers timeout =>
    obtain ⟨s, store, recovery, s', hs, hv, hopen, hrec, rfl⟩ := Cluster.step_restart.mp hstep
    have hd := ProcInv.down hsim.sane (hsim.procs id) hs
    obtain ⟨h', hs', hg, hgood, _⟩ := recover_good hsim.sane hd (Cluster.eq_ok_of_toOption hv)
      (fun hrec hord _ => hsim.single hsafe hs hrec hord) hopen hrec
    refine ⟨h', ?_, History.Later.of_grows hg⟩
    exact hsim.update (p := .up s') hs' hg hgood (fun m hm => (hsim.net m hm).grow hg)
      fun a ha => (hsim.applied a ha).grow hg

/-! ## Runs -/

/-- A run of the cluster is a run of the history, and every state in between is
simulated by an earlier part of that history. -/
theorem Sim.run_all {p : Cluster σ → Event → Prop}
    (hp : ∀ c h ev, Sim K c h → p c ev → EventSafe K c h ev) {events : List Event}
    (hsim : Sim K c h) (halways : c.Always K.voters p events)
    (hrun : c.run K.voters events = some c') :
    ∃ h', Sim K c' h' ∧ History.Later h h' ∧ ∀ before after c₁, events = before ++ after →
      c.run K.voters before = some c₁ → ∃ h₁, Sim K c₁ h₁ ∧ History.Later h₁ h' := by
  induction events generalizing c h with
  | nil =>
    cases hrun
    refine ⟨h, hsim, History.Later.refl h, fun before after c₁ hsplit hrun₁ => ?_⟩
    obtain ⟨rfl, rfl⟩ := List.append_eq_nil_iff.mp hsplit.symm
    cases hrun₁
    exact ⟨h, hsim, History.Later.refl h⟩
  | cons ev events ih =>
    obtain ⟨c₂, hstep, hrest⟩ := Cluster.run_cons hrun
    obtain ⟨h₂, hsim₂, hl₂⟩ := hsim.step (hp c h ev hsim halways.1) hstep
    obtain ⟨h', hsim', hl', hall⟩ := ih hsim₂ (halways.2 c₂ hstep) hrest
    refine ⟨h', hsim', hl₂.trans hl', fun before after c₁ hsplit hrun₁ => ?_⟩
    cases before with
    | nil =>
      cases hrun₁
      exact ⟨h, hsim, hl₂.trans hl'⟩
    | cons ev' before =>
      rw [List.cons_append, List.cons.injEq] at hsplit
      obtain ⟨rfl, hsplit⟩ := hsplit
      obtain ⟨c₃, hstep', hrun₃⟩ := Cluster.run_cons hrun₁
      rw [hstep] at hstep'
      cases hstep'
      exact hall before after c₁ hsplit hrun₃

theorem Sim.run {p : Cluster σ → Event → Prop}
    (hp : ∀ c h ev, Sim K c h → p c ev → EventSafe K c h ev) {events : List Event}
    (hsim : Sim K c h) (halways : c.Always K.voters p events)
    (hrun : c.run K.voters events = some c') :
    ∃ h', Sim K c' h' ∧ History.Later h h' := by
  obtain ⟨h', hsim', hl, _⟩ := hsim.run_all hp halways hrun
  exact ⟨h', hsim', hl⟩

/-- A new cluster has the empty history. -/
theorem Cluster.Initial.sim (hinit : c.Initial K.voters)
    (hstart : ∀ a x, K.started a x = none) : Sim K c History.empty where
  sane := {
    valid := History.Valid.empty
    wf := fun t r hr => by cases hr
    allowed := fun t r hr => by cases hr
    voter := fun t r hr => by cases hr
    before := fun a x h₀ hst => by rw [hstart] at hst; cases hst }
  procs id := by
    rcases hinit.procs id with hno | ⟨peers, timeout, store, s, hnew, hvoters, hempty, hup⟩
    · rw [hno]; trivial
    · rw [hup]
      cases hv : initialVoters id peers with
      | error e =>
        unfold newNodeWithStore at hnew
        rw [hv] at hnew
        cases hnew
      | ok v =>
        rw [newNodeWithStore_eq hv] at hnew
        cases hnew
        replace hvoters : v = K.voters := hvoters
        subst hvoters
        exact Or.inl (new_live hv hempty)
  net m hm := by rw [hinit.net] at hm; cases hm
  applied a ha := by rw [hinit.applied] at ha; cases ha

end Promtact.Raft
