import Promtact.Raft.Transfer

/-!
# The same cluster over other stores

Two clusters over linked stores take the same steps, as long as no store of the
first one has left the relation (`Bond.Matches.run`). A store that has left it
never comes back, so it is enough to look at the last state of a run.
-/

namespace Promtact.Raft

open Function (update)

variable {σ τ : Type}

/-! ## Stores that are opened again -/

/-- Both stores open with the same result, or neither does. -/
def Bond.Opens (B : Bond σ τ) : Option (σ × Recovery) → Option (τ × Recovery) → Prop
  | some (s, recovery), some (t, recovery') => recovery' = recovery ∧ B.rel s t
  | none, none => True
  | _, _ => False

structure OpenLink (σ τ : Type) [OpenStore σ] [OpenStore τ] extends Link σ τ where
  tight : ¬ loose
  reopen : ∀ s t, rel s t → toBond.Opens (OpenStore.reopen s) (OpenStore.reopen t)
  lost_reopen : ∀ s s' recovery, lost s → OpenStore.reopen s = some (s', recovery) → lost s'

/-! ## Clusters -/

namespace Bond

variable (B : Bond σ τ)

def Procs : Proc σ → Proc τ → Prop
  | .absent, .absent => True
  | .up s, .up t => B.Alike s t
  | .down s, .down t => B.Alike s t
  | _, _ => False

structure Matches (c : Cluster σ) (d : Cluster τ) : Prop where
  procs : ∀ id, B.Procs (c.procs id) (d.procs id)
  net : d.net = c.net
  applied : d.applied = c.applied

/-- A store of the cluster has left the relation. -/
def Lost (c : Cluster σ) : Prop := ∃ id s, (c.procs id).node? = some s ∧ B.lost s.store

variable {B}

theorem Procs.node {p : Proc σ} {q : Proc τ} (h : B.Procs p q) {s : Node σ}
    (hs : p.node? = some s) : ∃ t, q.node? = some t ∧ B.Alike s t := by
  cases p <;> cases q
  all_goals first | exact h.elim | cases hs
  · exact ⟨_, rfl, h⟩
  · exact ⟨_, rfl, h⟩

theorem Procs.update {c : Nat → Proc σ} {d : Nat → Proc τ} (h : ∀ id, B.Procs (c id) (d id))
    {id : Nat} {p : Proc σ} {q : Proc τ} (hp : B.Procs p q) (id' : Nat) :
    B.Procs (update c id p id') (update d id q id') := by
  by_cases hid : id' = id
  · subst hid
    rw [Function.update_self, Function.update_self]
    exact hp
  · rw [Function.update_of_ne hid, Function.update_of_ne hid]
    exact h id'

theorem Matches.deliverable [OpenStore σ] [OpenStore τ] {c : Cluster σ} {d : Cluster τ}
    (hm : B.Matches c d) (id : Nat) (op : Op) : d.Deliverable id op ↔ c.Deliverable id op := by
  cases op <;> simp only [Cluster.Deliverable, hm.net]

/-- A process that is replaced leaves a lost store of another process alone. -/
theorem Lost.update {c : Cluster σ} {procs : Nat → Proc σ} {net : List Message}
    {applied : List Application} {id : Nat} {p : Proc σ} (hc : B.Lost c)
    (hp : ∀ s, (c.procs id).node? = some s → B.lost s.store →
      ∃ s', p.node? = some s' ∧ B.lost s'.store) (heq : procs = Function.update c.procs id p) :
    B.Lost ⟨procs, net, applied⟩ := by
  obtain ⟨id', s, hs, hlost⟩ := hc
  subst heq
  by_cases hid : id' = id
  · subst hid
    obtain ⟨s', hs', hlost'⟩ := hp s hs hlost
    exact ⟨id', s', by simpa using hs', hlost'⟩
  · exact ⟨id', s, by simpa [hid] using hs, hlost⟩

end Bond

/-! ## New clusters -/

/-- The process over another store. -/
def Proc.over (store : τ) : Proc σ → Proc τ
  | .absent => .absent
  | .up n => .up (n.over store n.storageErr)
  | .down n => .down (n.over store n.storageErr)

/-- A new cluster over one store matches a new cluster over another. -/
theorem Cluster.New.matches {B : Bond σ τ} {voters : Word} {a : σ} {b : τ} {c : Cluster σ}
    (h : c.New voters a) (hrel : B.rel a b) : ∃ d : Cluster τ, d.New voters b ∧ B.Matches c d := by
  have hproc : ∀ id, B.Procs (c.procs id) ((c.procs id).over b) ∧
      ((c.procs id).over b = .absent ∨ ∃ peers timeout n,
        newNodeWithStore id peers timeout b = .ok n ∧ n.votersOld = voters ∧
        (c.procs id).over b = .up n) := by
    intro id
    rcases h.procs id with habsent | ⟨peers, timeout, n, hnew, hvoters, hup⟩
    · rw [habsent]
      exact ⟨trivial, Or.inl rfl⟩
    · rw [hup]
      unfold newNodeWithStore at hnew ⊢
      cases hv : initialVoters id peers with
      | error e =>
        rw [hv] at hnew
        cases hnew
      | ok v =>
        rw [hv] at hnew
        cases hnew
        refine ⟨⟨hrel, rfl⟩, Or.inr ⟨peers, timeout, _, ?_, hvoters, rfl⟩⟩
        rw [hv]
        rfl
  exact ⟨{ procs := fun id => (c.procs id).over b }, ⟨fun id => (hproc id).2, rfl, rfl⟩,
    ⟨fun id => (hproc id).1, h.net.symm, h.applied.symm⟩⟩

variable [OpenStore σ] [OpenStore τ] [Inhabited σ] [Inhabited τ] {L : OpenLink σ τ}
variable {voters : Word} {c c' : Cluster σ} {d : Cluster τ}

namespace Bond

theorem Lost.execOp (hc : L.Lost c) {id : Nat} {s : Node σ} (hup : c.procs id = .up s) (op : Op) :
    L.Lost (c.execOp id s op) := by
  have hkeep := (linked_exec (L := L.toLink) op).lost s
  unfold Cluster.execOp
  cases hrun : op.exec s with
  | ok output s' =>
    rw [hrun] at hkeep
    refine hc.update (fun s₀ hs₀ hlost => ⟨s', rfl, ?_⟩) rfl
    rw [hup] at hs₀
    cases hs₀
    exact hkeep hlost
  | error e s' =>
    rw [hrun] at hkeep
    refine hc.update (p := .down s') (fun s₀ hs₀ hlost => ⟨s', rfl, ?_⟩) rfl
    rw [hup] at hs₀
    cases hs₀
    exact hkeep hlost

theorem Lost.step (hc : L.Lost c) {ev : Event} (hstep : c.step voters ev = some c') : L.Lost c' := by
  cases ev with
  | op id op =>
    obtain ⟨s, hup, _, rfl⟩ := Cluster.step_op.mp hstep
    exact hc.execOp hup op
  | restart id peers timeout =>
    obtain ⟨s, store, recovery, s', hs, _, hopen, hrec, rfl⟩ := Cluster.step_restart.mp hstep
    refine hc.update (p := .up s') (fun s₀ hs₀ hlost => ⟨s', rfl, ?_⟩) rfl
    rw [hs] at hs₀
    cases hs₀
    rw [recover_store hrec]
    exact L.lost_reopen _ _ _ hlost hopen

theorem Matches.execOp (hm : L.Matches c d) {id : Nat} {s : Node σ} {t : Node τ}
    (hst : L.Alike s t) (op : Op) (hkeep : ¬ L.Lost (c.execOp id s op)) :
    L.Matches (c.execOp id s op) (d.execOp id t op) := by
  have hends := (linked_exec (L := L.toLink) op).ends s t hst
  have hgone : ∀ s' t', L.Gone s' t' → (∃ out, op.exec s = .ok out s') ∨
      (∃ e, op.exec s = .error e s') → False := by
    rintro s' t' (hlost | ⟨hloose, _⟩) hrun
    · refine hkeep ⟨id, s', ?_, hlost⟩
      unfold Cluster.execOp
      rcases hrun with ⟨out, hrun⟩ | ⟨e, hrun⟩
      · simp [hrun, Proc.node?]
      · simp [hrun, Proc.node?]
    · exact L.tight hloose
  have happ : t.applications = s.applications := by
    obtain ⟨store, err, rfl, _⟩ := hst.eq_over
    rfl
  unfold Cluster.execOp
  cases hp : op.exec s with
  | ok out s' =>
    cases hq : op.exec t with
    | ok out' t' =>
      rw [hp, hq] at hends
      rcases hends with ⟨rfl, hst'⟩ | hg
      · exact { procs := Procs.update hm.procs hst'
                net := by cases out <;> simp only [hm.net]
                applied := by simp only [hm.applied, happ] }
      · exact (hgone s' t' hg (Or.inl ⟨out, hp⟩)).elim
    | error e t' =>
      rw [hp, hq] at hends
      exact (hgone s' t' hends (Or.inl ⟨out, hp⟩)).elim
  | error e s' =>
    cases hq : op.exec t with
    | ok out' t' =>
      rw [hp, hq] at hends
      exact (hgone s' t' hends (Or.inr ⟨e, hp⟩)).elim
    | error e' t' =>
      rw [hp, hq] at hends
      rcases hends with ⟨rfl, hst'⟩ | hg
      · exact { procs := Procs.update (p := .down s') (q := .down t') hm.procs hst'
                net := hm.net
                applied := hm.applied }
      · exact (hgone s' t' hg (Or.inr ⟨e, hp⟩)).elim

theorem Matches.step (hm : L.Matches c d) {ev : Event} (hstep : c.step voters ev = some c')
    (hkeep : ¬ L.Lost c') : ∃ d', d.step voters ev = some d' ∧ L.Matches c' d' := by
  cases ev with
  | op id op =>
    obtain ⟨s, hup, hdel, rfl⟩ := Cluster.step_op.mp hstep
    have hproc := hm.procs id
    cases hup' : d.procs id with
    | absent => rw [hup, hup'] at hproc; exact hproc.elim
    | down t => rw [hup, hup'] at hproc; exact hproc.elim
    | up t =>
      rw [hup, hup'] at hproc
      refine ⟨d.execOp id t op, ?_, hm.execOp hproc op hkeep⟩
      exact Cluster.step_op.mpr ⟨t, hup', (hm.deliverable id op).mpr hdel, rfl⟩
  | restart id peers timeout =>
    obtain ⟨s, store, recovery, s', hs, hv, hopen, hrec, rfl⟩ := Cluster.step_restart.mp hstep
    obtain ⟨t, ht, hst⟩ := (hm.procs id).node hs
    have hopens := L.reopen s.store t.store hst.1
    rw [hopen] at hopens
    cases hopen' : OpenStore.reopen t.store with
    | none => rw [hopen'] at hopens; exact hopens.elim
    | some opened =>
      obtain ⟨store', recovery'⟩ := opened
      rw [hopen'] at hopens
      obtain ⟨rfl, hrel⟩ := hopens
      obtain ⟨err, hrec'⟩ := recover_ok store' hrec
      refine ⟨_, Cluster.step_restart.mpr ⟨t, store', _, _, ht, hv, hopen', hrec', rfl⟩,
        { hm with procs := Procs.update hm.procs ?_ }⟩
      exact ⟨by rw [recover_store hrec]; exact hrel, rfl⟩

theorem Lost.run (hc : L.Lost c) {events : List Event} (hrun : c.run voters events = some c') :
    L.Lost c' := by
  induction events generalizing c with
  | nil =>
    cases hrun
    exact hc
  | cons ev events ih =>
    obtain ⟨c₁, hstep, hrest⟩ := Cluster.run_cons hrun
    exact ih (hc.step hstep) hrest

/-- A run of a cluster is a run of the other one. -/
theorem Matches.run (hm : L.Matches c d) {events : List Event}
    (hrun : c.run voters events = some c') (hkeep : ¬ L.Lost c') :
    ∃ d', d.run voters events = some d' ∧ L.Matches c' d' := by
  induction events generalizing c d with
  | nil =>
    cases hrun
    exact ⟨d, rfl, hm⟩
  | cons ev events ih =>
    obtain ⟨c₁, hstep, hrest⟩ := Cluster.run_cons hrun
    obtain ⟨d₁, hstep', hm₁⟩ := hm.step hstep fun hlost => hkeep (hlost.run hrest)
    obtain ⟨d', hrest', hm'⟩ := ih hm₁ hrest
    refine ⟨d', ?_, hm'⟩
    unfold Cluster.run
    rw [List.foldlM_cons, hstep']
    exact hrest'

end Bond

end Promtact.Raft
