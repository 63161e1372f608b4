import Promtact.Raft.Safety
import Promtact.Sim.CatchUp

/-!
# The safety checks of the simulators

`sim.CheckSafety` and the invariants of `raftcluster` report the first violation among the
nodes. `Safe` says what they look for. In every orderly run over machines the nodes are
safe, so that no check reports anything (`safety_checks_pass`).

A `range` over a map visits the nodes in any order, and each loop in one of its own: an
order is a list of IDs with their nodes.
-/

namespace Promtact.Sim

open Function (update)
open Promtact.Raft (Node State Word Entry)

variable {σ : Type}

/-! ## The checks -/

/-- What the report of a disagreement says of one node. -/
structure Side where
  term : Nat
  command : Word
  commit : Nat
  last : Nat
  state : State

inductive Violation
  | twoLeaders (term prior id : Nat)
  | invalidIndexes (id base applied commit last : Nat)
  | disagree (a b index : Nat) (left right : Side)

def checkIndexes (p : Nat × Node σ) : Option Violation :=
  if p.2.commit < p.2.baseIndex ∨ p.2.lastIndex < p.2.commit ∨
      p.2.applied < p.2.baseIndex ∨ p.2.commit < p.2.applied then
    some (.invalidIndexes p.1 p.2.baseIndex p.2.applied p.2.commit p.2.lastIndex)
  else none

/-- The loop that notes the leader of each term, with what else it checks. -/
def checkLeaders (also : Nat × Node σ → Option Violation) :
    (Nat → Option Nat) → List (Nat × Node σ) → Option Violation
  | _, [] => none
  | leaders, p :: ps =>
    if p.2.state = .leader then
      match (leaders p.2.term).filter (· ≠ p.1) with
      | some prior => some (.twoLeaders p.2.term prior p.1)
      | none => also p <|> checkLeaders also (update leaders p.2.term (some p.1)) ps
    else also p <|> checkLeaders also leaders ps

def side (n : Node σ) (index : Nat) : Side :=
  let e := (n.entryAt? index).getD {}
  ⟨e.term, e.command, n.commit, n.lastIndex, n.state⟩

/-- The base that both share carries no command, so it is compared by its term alone. -/
def checkPair (a b : Nat × Node σ) : Option Violation :=
  let first := max a.2.baseIndex b.2.baseIndex
  let limit := min a.2.commit b.2.commit
  (Node.indexes first limit).findSome? fun index =>
    let ea := a.2.entryAt? index
    let eb := b.2.entryAt? index
    if ea.isNone ∨ eb.isNone ∨ (ea.getD {}).term ≠ (eb.getD {}).term ∨
        first < index ∧ ea.getD {} ≠ eb.getD {} then
      some (.disagree a.1 b.1 index (side a.2 index) (side b.2 index))
    else none

/-- `sim.CheckSafety`, with the order of each loop. -/
def checkSafety (nodes left : List (Nat × Node σ)) (right : Nat → List (Nat × Node σ)) :
    Option Violation :=
  checkLeaders checkIndexes (fun _ => none) nodes <|>
    left.findSome? fun a =>
      (right a.1).findSome? fun b => if b.1 ≤ a.1 then none else checkPair a b

namespace RaftCluster

/-- The nodes in the order of the IDs; every ID has one. -/
def members (c : RaftCluster) : List (Nat × Node StableStore) :=
  c.ids.filterMap fun id => (c.machines.nodes id).map (id, ·)

def checkElectionSafety (c : RaftCluster) : Option Violation :=
  checkLeaders (fun _ => none) (fun _ => none) c.members

def checkIndexSanity (c : RaftCluster) : Option Violation := c.members.findSome? checkIndexes

/-- Each node is compared with those behind it. -/
def checkCommittedPrefix (c : RaftCluster) : Option Violation :=
  c.members.tails.findSome? fun tail => tail.head?.bind fun a => tail.tail.findSome? (checkPair a)

def safetyInvariants (c : RaftCluster) : List (String × Option Violation) :=
  [("election safety", c.checkElectionSafety), ("index sanity", c.checkIndexSanity),
    ("committed prefix", c.checkCommittedPrefix)]

end RaftCluster

/-! ## Safe nodes pass -/

/-- What the checks look for. -/
structure Safe (nodes : Nat → Option (Node σ)) : Prop where
  leader : ∀ a b, ∀ na ∈ nodes a, ∀ nb ∈ nodes b, na.state = .leader → nb.state = .leader →
    na.term = nb.term → a = b
  ordered : ∀ id, ∀ n ∈ nodes id, n.baseIndex ≤ n.applied ∧ n.applied ≤ n.commit ∧
    n.commit ≤ n.lastIndex
  agree : ∀ a b, ∀ na ∈ nodes a, ∀ nb ∈ nodes b, ∀ i, max na.baseIndex nb.baseIndex ≤ i →
    i ≤ min na.commit nb.commit → ∃ ea eb, na.entryAt? i = some ea ∧ nb.entryAt? i = some eb ∧
      ea.term = eb.term ∧ (max na.baseIndex nb.baseIndex < i → ea = eb)

/-- A loop over some of the nodes. -/
def Visits (nodes : Nat → Option (Node σ)) (ps : List (Nat × Node σ)) : Prop :=
  ∀ p ∈ ps, p.2 ∈ nodes p.1

namespace Safe

variable {nodes : Nat → Option (Node σ)} {ps : List (Nat × Node σ)} (hs : Safe nodes)
include hs

theorem checkIndexes_eq (hps : Visits nodes ps) :
    ∀ p ∈ ps, checkIndexes p = none := by
  intro p hp
  have := hs.ordered p.1 p.2 (hps p hp)
  exact if_neg (by omega)

theorem checkLeaders_eq {also : Nat × Node σ → Option Violation} {leaders : Nat → Option Nat}
    (hps : Visits nodes ps) (halso : ∀ p ∈ ps, also p = none)
    (hnoted : ∀ t, ∀ id ∈ leaders t, ∃ n ∈ nodes id, n.state = .leader ∧ n.term = t) :
    checkLeaders also leaders ps = none := by
  induction ps generalizing leaders with
  | nil => rfl
  | cons p ps ih =>
    obtain ⟨hp, hps⟩ := List.forall_mem_cons.mp hps
    obtain ⟨halsop, halso⟩ := List.forall_mem_cons.mp halso
    unfold checkLeaders
    rw [halsop]
    by_cases hstate : p.2.state = .leader
    · have hprior : (leaders p.2.term).filter (· ≠ p.1) = none := by
        rw [Option.filter_eq_none_iff]
        intro prior hprior
        obtain ⟨n, hn, hlead, hterm⟩ := hnoted _ prior hprior
        simpa using hs.leader prior p.1 n hn p.2 hp hlead hstate hterm
      rw [if_pos hstate, hprior]
      refine ih hps halso fun t id hid => ?_
      by_cases ht : t = p.2.term
      · subst ht
        rw [Function.update_self] at hid
        cases hid
        exact ⟨p.2, hp, hstate, rfl⟩
      · rw [Function.update_of_ne ht] at hid
        exact hnoted t id hid
    · rw [if_neg hstate]
      exact ih hps halso hnoted

theorem checkPair_eq {a b : Nat × Node σ} (ha : a.2 ∈ nodes a.1) (hb : b.2 ∈ nodes b.1) :
    checkPair a b = none := by
  refine List.findSome?_eq_none_iff.mpr fun i hi => if_neg ?_
  obtain ⟨hfirst, hlimit⟩ := Raft.mem_indexes.mp hi
  obtain ⟨ea, eb, hea, heb, hterm, heq⟩ := hs.agree a.1 b.1 a.2 ha b.2 hb i hfirst hlimit
  simp only [hea, heb, Option.isNone_some, Option.getD_some]
  rintro (h | h | h | ⟨hlt, h⟩)
  · cases h
  · cases h
  · exact h hterm
  · exact h (heq hlt)

theorem checkSafety_eq {left : List (Nat × Node σ)} {right : Nat → List (Nat × Node σ)}
    (hps : Visits nodes ps) (hleft : Visits nodes left) (hright : ∀ id, Visits nodes (right id)) :
    checkSafety ps left right = none := by
  unfold checkSafety
  rw [hs.checkLeaders_eq hps (hs.checkIndexes_eq hps) fun t id hid => by cases hid]
  refine List.findSome?_eq_none_iff.mpr fun a ha => List.findSome?_eq_none_iff.mpr fun b hb => ?_
  split
  · rfl
  · exact hs.checkPair_eq (hleft a ha) (hright a.1 b hb)

end Safe

theorem RaftCluster.visits_members (c : RaftCluster) : Visits c.machines.nodes c.members := by
  intro p hp
  obtain ⟨id, _, hid⟩ := List.mem_filterMap.mp hp
  obtain ⟨n, hn, rfl⟩ := Option.map_eq_some_iff.mp hid
  exact hn

theorem Safe.safetyInvariants_eq {c : RaftCluster} (hs : Safe c.machines.nodes) :
    ∀ check ∈ c.safetyInvariants, check.2 = none := by
  have hmem := c.visits_members
  have helection : c.checkElectionSafety = none :=
    hs.checkLeaders_eq hmem (fun _ _ => rfl) fun t id hid => by cases hid
  have hindexes : c.checkIndexSanity = none :=
    List.findSome?_eq_none_iff.mpr (hs.checkIndexes_eq hmem)
  have hprefix : c.checkCommittedPrefix = none := by
    refine List.findSome?_eq_none_iff.mpr fun tail htail => ?_
    have hsub := ((List.mem_tails _ _).mp htail).subset
    cases tail with
    | nil => rfl
    | cons a rest =>
      exact List.findSome?_eq_none_iff.mpr fun b hb => hs.checkPair_eq
        (hmem a (hsub List.mem_cons_self)) (hmem b (hsub (List.mem_cons_of_mem _ hb)))
  simp [RaftCluster.safetyInvariants, helection, hindexes, hprefix]

/-! ## Runs -/

variable {voters : Word} {w : World} {c : Raft.Cluster (Raft.Ledger true)}
variable {h : QuorumLog.History Nat Entry} {n : Node StableStore} {id : Nat}
variable {ids : List Nat} {timeout : Nat → Nat}

theorem Inv.over (hinv : Inv voters w c h) (hn : n ∈ w.machines.nodes id) :
    ∃ store err, c.procs id = .up (n.over store err) ∧
      Raft.Good (setting voters) id h (n.over store err) := by
  obtain ⟨t, hup, hm, hgood⟩ := hinv.mirror hn
  refine ⟨t.store, t.storageErr, ?_⟩
  rw [← hm.same]
  exact ⟨hup, hgood⟩

/-- A node holds what it has committed and not discarded, and the cluster shows it. -/
theorem Inv.shown (hinv : Inv voters w c h) (hn : n ∈ w.machines.nodes id) :
    (n.baseIndex ≤ n.applied ∧ n.applied ≤ n.commit ∧ n.commit ≤ n.lastIndex) ∧
    ∀ i, n.baseIndex ≤ i → i ≤ n.commit → ∃ e, n.entryAt? i = some e ∧
      c.ShowsTerm i e.term ∧ (n.baseIndex < i → c.Shows i e) := by
  obtain ⟨store, err, hup, hgood⟩ := hinv.over hn
  obtain ⟨x, hview, _, hbase, happlied, hcommit, _⟩ := (hgood.down hinv.sim.sane).past
  have hnode : (c.procs id).node? = some (n.over store err) := by rw [hup]; rfl
  refine ⟨⟨hbase, happlied, hcommit.trans hview.lastIndex.ge⟩, fun i hlo hhi => ?_⟩
  obtain ⟨e, hentry, _⟩ := Option.map_eq_some_iff.mp (hview.termAt hlo (hhi.trans hcommit))
  refine ⟨e, hentry, ⟨id, _, hnode, (if_pos hhi).trans ?_⟩, fun hlt =>
    Or.inl ⟨id, _, hnode, (if_pos ⟨hlt, hhi⟩).trans hentry⟩⟩
  rw [Node.termAt, hentry]
  rfl

theorem Inv.leads (hinv : Inv voters w c h) (hn : n ∈ w.machines.nodes id)
    (hstate : n.state = .leader) : c.Leads id n.term := by
  obtain ⟨store, err, hup, _⟩ := hinv.over hn
  unfold Raft.Cluster.Leads
  rw [hup]
  exact ⟨hstate, rfl⟩

theorem Inv.safe (hinv : Inv voters w c h) : Safe w.machines.nodes where
  leader a b na hna nb hnb hla hlb hterm :=
    hinv.sim.leader_unique hinv.sim (.refl _) (hterm ▸ hinv.leads hna hla) (hinv.leads hnb hlb)
  ordered id n hn := (hinv.shown hn).1
  agree a b na hna nb hnb i hfirst hlimit := by
    obtain ⟨ea, hea, hta, hsa⟩ := (hinv.shown hna).2 i (by omega) (by omega)
    obtain ⟨eb, heb, htb, hsb⟩ := (hinv.shown hnb).2 i (by omega) (by omega)
    exact ⟨ea, eb, hea, heb, hinv.sim.agreeTerm hinv.sim (.refl _) hta htb,
      fun hlt => hinv.sim.agree hinv.sim (.refl _) (hsa (by omega)) (hsb (by omega))⟩

/-- In every run over machines that keeps to the following, no safety check reports a
violation, in whatever order the maps are visited. A snapshot that a node takes over ends in
an entry of its log, and carries the node's voters if its last index is below Commit. No
compaction at `index` is made while a joint or final configuration stands at an index in
`(index, Commit]`. Voters are proposed among the machines, and the arguments of the store
calls are values of their Go types. -/
theorem safety_checks_pass {m : Machines} {actions : List Action}
    (hstart : Machines.start ids timeout = some m)
    (horderly : Runs.Always (World.step timeout) (World.Orderly ids) { machines := m } actions)
    (hrun : Runs.run (World.step timeout) { machines := m } actions = some w)
    {nodes left : List (Nat × Node StableStore)} {right : Nat → List (Nat × Node StableStore)}
    (hnodes : Visits w.machines.nodes nodes) (hleft : Visits w.machines.nodes left)
    (hright : ∀ id, Visits w.machines.nodes (right id)) :
    checkSafety nodes left right = none ∧
      ∀ check ∈ (RaftCluster.mk ids w.machines).safetyInvariants, check.2 = none := by
  obtain ⟨voters, c₀, h₀, hclosed, hinv₀⟩ := (started_of_start hstart).inv
  obtain ⟨c, h, hinv⟩ : ∃ c h, Inv voters w c h :=
    Runs.run_invariant (I := fun w => ∃ c h, Inv voters w c h)
      (by rintro w a w' ⟨c, h, hinv⟩ ha hstep; exact hinv.step hclosed ha hstep)
      ⟨c₀, h₀, hinv₀⟩ horderly hrun
  exact ⟨hinv.safe.checkSafety_eq hnodes hleft hright, hinv.safe.safetyInvariants_eq⟩

theorem safety_checks_pass_heldSchedule : ∃ (w : World) (c : RaftCluster),
    Runs.run (World.step electionTimeout) { machines := newMachines } heldSchedule = some w ∧
    c = ⟨[1, 2, 3], w.machines⟩ ∧ c.members.length = 3 ∧
    ∀ check ∈ c.safetyInvariants, check.2 = none := by
  obtain ⟨w, hrun, hlen⟩ := Runs.run_check (World.step electionTimeout)
    { machines := newMachines } heldSchedule
    (fun w => (RaftCluster.mk [1, 2, 3] w.machines).members.length = 3) (by decide +kernel)
  have hmem := (RaftCluster.mk [1, 2, 3] w.machines).visits_members
  exact ⟨w, _, hrun, rfl, hlen, (safety_checks_pass start_newMachines (by decide +kernel) hrun
    hmem hmem fun _ => hmem).2⟩

end Promtact.Sim
