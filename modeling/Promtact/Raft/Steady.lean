import Promtact.Raft.Calm
import Promtact.Raft.Process

/-!
# A crash changes nothing

The memory of a running node and its store hold the same, since both are related to
the same history. So a node that is rebuilt from its store is the node that was
there before, up to what a node forgets: its role, its peers' progress and the
entries it has applied (`Node.Rebuilt`).

The results are for stores that never fail a call that makes sense.
-/

namespace Promtact.Raft

open QuorumLog GhostState
open Node (indexes)

variable {σ : Type}

/-! ## The same node -/

/-- A node that is running and has what the other one had. -/
structure Node.Rebuilt {σ τ : Type} (s : Node σ) (s' : Node τ) : Prop where
  running : s'.faulted = false
  hard : s'.term = s.term ∧ s'.votedFor = s.votedFor ∧ s'.commit = s.commit
  base : s'.baseIndex = s.baseIndex ∧ s'.baseTerm = s.baseTerm
  suffix : s'.log.tail = s.log.tail
  snapshot : s'.snapshot = s.snapshot
  voters : s'.votersOld = s.votersOld ∧ s'.votersNew = s.votersNew

/-- The store holds the log of the node from its base on. -/
structure Node.Stored {σ : Type} (s : Node σ) (base : Nat) (data : List Entry) : Prop where
  base_eq : base = s.baseIndex
  suffix : data.tail = s.log.tail
  base_term : data.head?.map (·.term) = some s.baseTerm

variable [LawfulStore σ] {K : Setting σ} {n : Nat} {h : History Nat Entry} {s s' : Node σ}
variable {c : Cluster σ} {voters : Word}

theorem View.tail {x data data' : List Entry} {base : Nat} (hv : View voters x base data)
    (hv' : View voters x base data') : data'.tail = data.tail := by
  obtain ⟨_, _, _, rfl⟩ := hv
  obtain ⟨_, _, _, rfl⟩ := hv'
  rfl

theorem Voted.same {t t' v v' : Nat} (hv : Voted h n t v) (hv' : Voted h n t' v') :
    t' = t ∧ v' = v := by
  obtain ⟨rfl, hvote⟩ := hv
  obtain ⟨rfl, hvote'⟩ := hv'
  refine ⟨rfl, ?_⟩
  rw [hvote] at hvote'
  split at hvote' <;> split at hvote' <;> simp_all

/-- Two running nodes of one history that have the same store are the same. -/
theorem LiveAt.rebuilt (hl : Live K n .full h s) (hl' : Live K n .full h s')
    (hstore : LawfulStore.durable s'.store = LawfulStore.durable s.store) : s.Rebuilt s' := by
  have hbase : s'.baseIndex = s.baseIndex := by rw [hl'.synced.1, hl.synced.1, hstore]
  have hcommit : s'.commit = s.commit := by rw [← hl'.logged.commit_eq, hl.logged.commit_eq]
  have hview := hl'.logged.view
  have hconf := hl'.configured.1
  rw [hbase] at hview
  rw [hcommit, hl.configured.1] at hconf
  obtain ⟨hterm, hvote⟩ := hl.voted.same hl'.voted
  exact {
    running := hl'.running
    hard := ⟨hterm, hvote, hcommit⟩
    base := ⟨hbase, by rw [hl'.logged.baseTerm_eq, hl.logged.baseTerm_eq, hbase]⟩
    suffix := hl.logged.view.tail hview
    snapshot := by rw [hl'.synced.2.1, hl.synced.2.1, hstore]
    voters := ⟨(congrArg Prod.fst hconf).symm, (congrArg Prod.snd hconf).symm⟩ }

theorem LiveAt.stored {M : Mode} {j : Nat} (hl : LiveAt K n M j h s) :
    s.Stored (LawfulStore.durable s.store).base (LawfulStore.durable s.store).data := by
  have hview := hl.dur.view
  rw [← hl.synced.1] at hview
  refine ⟨hl.synced.1.symm, hl.logged.view.tail hview, ?_⟩
  obtain ⟨e, he, hterm⟩ := hview.head
  rw [List.head?_eq_getElem?, he, hl.logged.baseTerm_eq, ← hterm]
  rfl

/-! ## Nodes whose stores never fail -/

theorem Good.running (hg : Good K n h s) (hrel : K.reliable) : Live K n .full h s :=
  hg.resolve_right fun hd => hd.unreliable hrel

/-- A running node is rebuilt from what its store holds. -/
theorem Good.rebuilds (hs : Sane K h) (hg : Good K n h s) (hrel : K.reliable) {peers : List Nat}
    (timeout : Nat) (hv : initialVoters n peers = .ok K.voters)
    (hone : K.reconf → K.orderly → Single K (h.log n) (h.commit n)) :
    ∃ s', recover n peers timeout s.store (LawfulStore.durable s.store).recovery = .ok s' ∧
      s.Rebuilt s' := by
  have hl := hg.running hrel
  obtain ⟨s', hrec⟩ := recover_total hv timeout s.store (LawfulStore.durable s.store).recovery
  obtain ⟨prog, s₀, _, _, heq, hw⟩ := recover_wp timeout hs hv hl.dur hl.synced.2.2 hone
  have hstore : s'.store = s.store :=
    have : Inhabited σ := ⟨s.store⟩
    recover_store hrec
  rw [heq] at hrec
  obtain ⟨_, _, rfl, hgood, _⟩ := hw.elim_ok (built_ok hrec)
  exact ⟨s', heq.trans hrec, LiveAt.rebuilt hl (hgood.running hrel) (by rw [hstore])⟩

/-- Fixed voters, and stores that never fail. -/
def steadySetting (hrel : Reliable σ False) (voters : Word) : Setting σ where
  voters := voters
  reconf := False
  orderly := False
  Image _ _ := True
  fresh := False
  started _ _ := none
  reliable := True
  reliable_store _ := hrel
  reliable_orderly _ := False.elim
  fresh_fixed := fixed_of_never

theorem steady_eventSafe {hrel : Reliable σ False} {ev : Event} (hev : ev.reconfigures = false) :
    EventSafe (steadySetting hrel voters) c h ev := by
  cases ev with
  | restart id peers timeout => exact False.elim
  | op id op =>
    cases op with
    | step m => exact fun _ _ => ⟨False.elim, False.elim, False.elim, False.elim, fun _ _ _ _ _ _ _ => trivial⟩
    | proposeJoint ids => cases hev
    | propose command => exact fun _ _ _ => trivial
    | proposeRequest operation clientID requestID key value => exact fun _ _ _ => trivial
    | startReadIndex context => exact False.elim
    | transferLeadership target => exact False.elim
    | compact index state =>
      exact fun s _ _ _ => { image := fun _ _ _ => trivial, own := fun _ _ _ => trivial
                             plain := False.elim }
    | _ => trivial

/-- With fixed voters and a store that never fails, a node is always running, its
store holds its log, and it is rebuilt from the store as it was. -/
theorem Cluster.Initial.steady (hrel : Reliable σ False) {c₀ : Cluster σ} {events : List Event}
    (hinit : c₀.Initial voters) (hev : ∀ ev ∈ events, ev.reconfigures = false)
    (hrun : c₀.run voters events = some c) {id : Nat} (hup : c.procs id = .up s) :
    s.faulted = false ∧
      s.Stored (LawfulStore.durable s.store).base (LawfulStore.durable s.store).data ∧
      (LawfulStore.durable s.store).base = (LawfulStore.durable s.store).snapshot.lastIndex ∧
      ∀ peers timeout, initialVoters id peers = .ok voters →
        ∃ s', recover id peers timeout s.store (LawfulStore.durable s.store).recovery = .ok s' ∧
          s.Rebuilt s' := by
  obtain ⟨h, hsim, _⟩ := (hinit.sim (K := steadySetting hrel voters) fun _ _ => rfl).run
    (p := fun _ ev => ev.reconfigures = false) (fun _ _ _ _ hev => steady_eventSafe hev)
    (always_of_forall hev) hrun
  have hgood : Good (steadySetting hrel voters) id h s := by
    have := hsim.procs id
    rwa [hup] at this
  have hl := hgood.running trivial
  exact ⟨hl.running, hl.stored, hl.synced.2.2, fun peers timeout hv =>
    hgood.rebuilds hsim.sane trivial timeout hv False.elim⟩

end Promtact.Raft
