import Promtact.Raft.Idle
import Promtact.Raft.Safety
import Promtact.Server.Fleet
import Promtact.StateMachine.Deduplication

/-!
# The servers of a fleet as replicas of one log

The nodes of a fleet form a cluster: a round of a server is a number of operations of its
node, a start is a restart of the node. `Mirrors` relates a fleet to such a cluster, and
`FleetSim` adds the history that the cluster simulates. Where the machine of a server is
followed as well, it is the one that the committed log up to the applied index computes
(`Reflects`).

`FleetSim.act_input` and `FleetSim.act_restart` say that an event keeps the relation,
`FleetSim.run_all` that a run does.
-/

namespace Promtact

open Function (update)
open QuorumLog GhostState
open Raft (Node Message Word Entry Op Panic OpenStore LawfulStore Recovery Proc Cluster Setting
  Sane MsgInv OpSafe Good Down ProcInv initialVoters)
open Raft.Node (indexes)
open StateMachine (Machine)

variable {σ : Type}

/-! ## The machine of a log -/

namespace StateMachine

/-- The entries of a log that a machine applies. -/
def normal (y : List Entry) : List Entry := y.filter (·.kind = .normal)

/-- The machine that a log computes. -/
def machineOf (y : List Entry) : Machine := Machine.new.applyAll (normal y)

theorem machineOf_append (y z : List Entry) :
    machineOf (y ++ z) = (machineOf y).applyAll (normal z) := by
  unfold machineOf normal
  rw [List.filter_append, Machine.applyAll_append]

/-- The machine applies the entries one after the other, without an error. -/
def Machine.Accepts : Machine → List Entry → Prop
  | _, [] => True
  | m, entry :: entries => (m.apply entry).1.isOk = true ∧ (m.apply entry).2.Accepts entries

instance Machine.Accepts.decidable : ∀ (m : Machine) (entries : List Entry),
    Decidable (m.Accepts entries)
  | _, [] => isTrue trivial
  | m, entry :: entries =>
    have : Decidable ((m.apply entry).2.Accepts entries) := decidable (m.apply entry).2 entries
    inferInstanceAs (Decidable ((m.apply entry).1.isOk = true ∧ (m.apply entry).2.Accepts entries))

theorem Machine.accepts_append {m : Machine} {front back : List Entry} :
    m.Accepts (front ++ back) ↔ m.Accepts front ∧ (m.applyAll front).Accepts back := by
  induction front generalizing m with
  | nil => exact (true_and _).symm.to_iff
  | cons entry front ih =>
    show _ ∧ Machine.Accepts _ (front ++ back) ↔ (_ ∧ Machine.Accepts _ front) ∧ _
    rw [ih, and_assoc]
    rfl

end StateMachine

open StateMachine (normal machineOf machineOf_append)

/-! ## What a node hands out -/

namespace Raft

variable [LawfulStore σ] {K : Setting σ} {n : Nat} {h : History Nat Entry} {s : Node σ}

/-- The normal entries among consecutive indexes. -/
theorem filterMap_normal {f : Nat → Option Entry} (z : List Entry) (a : Nat)
    (hf : ∀ i, i < z.length → f (a + i) = z[i]?) :
    ((List.range' a z.length).filterMap fun index => do
      let entry ← f index
      if entry.kind = .normal then some entry else none) = normal z := by
  induction z generalizing a with
  | nil => rfl
  | cons e z ih =>
    have hhead : f a = some e := hf 0 (Nat.zero_lt_succ _)
    have htail : ∀ i, i < z.length → f (a + 1 + i) = z[i]? := by
      intro i hi
      have := hf (i + 1) (Nat.succ_lt_succ hi)
      rwa [show a + (i + 1) = a + 1 + i by omega, List.getElem?_cons_succ] at this
    rw [List.length_cons, List.range'_succ, List.filterMap_cons, ih (a + 1) htail, hhead]
    by_cases hkind : e.kind = .normal <;> simp [normal, hkind]

omit [LawfulStore σ] in
theorem unapplied_kind {k : Nat} {e : Entry} (he : e ∈ s.unapplied k) : e.kind = .normal := by
  obtain ⟨index, _, hentry⟩ := List.mem_filterMap.mp he
  obtain ⟨e', _, hkind⟩ := Option.bind_eq_some_iff.mp hentry
  obtain ⟨hkind, he'⟩ := Option.ite_none_right_eq_some.mp hkind
  rwa [Option.some.inj he'] at hkind

/-- What a node hands out next is what is committed behind the log that it has applied. -/
theorem Down.unapplied (hs : Sane K h) (hd : Down K n h s) {t : Nat} {y : List Entry}
    (hy : h.Committed t y) (hlen : y.length = s.applied) :
    ∃ z, h.Committed (h.term n) (y ++ z) ∧ (y ++ z).length = s.commit ∧
      s.unapplied s.commit = normal z := by
  obtain ⟨x, hview, _, hb, hac, hcx, hcom⟩ := hd.past
  have hxlen : (x.take s.commit).length = s.commit := by
    rw [List.length_take]
    omega
  have hpre : y <+: x.take s.commit := by
    rcases hs.valid.committed_agree hy hcom with hp | hp
    · exact hp
    · have heq : x.take s.commit = y := hp.eq_of_length (by have := hp.length_le; omega)
      rw [heq]
  obtain ⟨z, hz⟩ := hpre
  refine ⟨z, hz ▸ hcom, hz ▸ hxlen, ?_⟩
  have hzlen : y.length + z.length = s.commit := by
    rw [← List.length_append, hz, hxlen]
  have hrange : indexes (s.applied + 1) s.commit = List.range' (s.applied + 1) z.length := by
    unfold indexes
    congr 1
    omega
  unfold Node.unapplied
  rw [hrange]
  refine filterMap_normal z (s.applied + 1) fun i hi => ?_
  rw [hview.entryAt? (by omega) (by omega), show s.applied + 1 + i - 1 = y.length + i by omega,
    ← List.getElem?_take_of_lt (l := x) (i := y.length + i) (j := s.commit) (by omega), ← hz,
    List.getElem?_append_right (Nat.le_add_right _ _), Nat.add_sub_cancel_left]

end Raft

/-! ## A fleet as a cluster -/

namespace Host

/-- The node of a server, as a process. -/
def proc : Host σ → Proc σ
  | absent => .absent
  | up s => .up s.node
  | ended s => .down s.node

theorem proc_node? {h : Host σ} {s : Server σ} (hs : h.server? = some s) :
    h.proc.node? = some s.node := by
  cases h with
  | absent => cases hs
  | up s' =>
    cases hs
    rfl
  | ended s' =>
    cases hs
    rfl

end Host

/-- What a cluster knows of something that left a server. -/
def Raft.Cluster.Covers (c : Cluster σ) : Server.Output → Prop
  | .sent m => m ∈ c.net
  | .applied e => e.kind = .normal ∧ ∃ a ∈ c.applied, a.entry = e
  | .replied _ _ => True

namespace Fleet

/-- The host is in another state, and what left it is recorded. -/
def put (f : Fleet σ) (id : Nat) (h : Host σ) : Fleet σ := { f with
  hosts := update f.hosts id h
  record := f.record ++ h.output.map (id, ·) }

/-- The nodes of the servers are those of the cluster, and the cluster knows of everything
that left a server. -/
structure Mirrors (f : Fleet σ) (c : Cluster σ) : Prop where
  procs : ∀ id, c.procs id = (f.hosts id).proc
  record : ∀ x ∈ f.record, c.Covers x.2

variable {f f' : Fleet σ} {c c' : Cluster σ} {id : Nat} {h₁ h₂ : Host σ}

theorem Mirrors.net (hm : Mirrors f c) {m : Message} (hmem : m ∈ f.net) : m ∈ c.net := by
  obtain ⟨id, hrec⟩ := mem_net.mp hmem
  exact hm.record _ hrec

/-- The host moves on, and with it the cluster. -/
theorem Mirrors.put (hm : Mirrors (f.put id h₁) c) (hprocs : c'.procs = update c.procs id h₂.proc)
    (hcovers : ∀ o, c.Covers o → c'.Covers o)
    (hout : ∀ o ∈ h₂.output, o ∈ h₁.output ∨ c'.Covers o) : Mirrors (f.put id h₂) c' where
  procs id' := by
    rw [hprocs]
    by_cases hid : id' = id
    · subst hid
      simp [Fleet.put]
    · have := hm.procs id'
      simpa [Fleet.put, hid] using this
  record x hx := by
    rcases List.mem_append.mp hx with hold | hnew
    · exact hcovers _ (hm.record x (List.mem_append_left _ hold))
    · obtain ⟨o, ho, rfl⟩ := List.mem_map.mp hnew
      rcases hout o ho with hin | hc
      · exact hcovers _ (hm.record (id, o) (List.mem_append_right _ (List.mem_map_of_mem hin)))
      · exact hc

/-- A host out of which nothing has come yet. -/
theorem Mirrors.set (hm : Mirrors f c) (hprocs : c'.procs = update c.procs id h₂.proc)
    (hcovers : ∀ o, c.Covers o → c'.Covers o) (hout : h₂.output = []) : Mirrors (f.put id h₂) c' where
  procs id' := by
    rw [hprocs]
    by_cases hid : id' = id
    · subst hid
      simp [Fleet.put]
    · simpa [Fleet.put, hid] using hm.procs id'
  record x hx := by
    simp only [Fleet.put, hout, List.map_nil, List.append_nil] at hx
    exact hcovers _ (hm.record x hx)

theorem Mirrors.begin {s : Server σ} (hm : Mirrors f c) (hup : f.hosts id = .up s) :
    Mirrors (f.put id (.up s.fresh)) c := by
  refine hm.set ?_ (fun _ ho => ho) rfl
  have hproc : (Host.up s.fresh).proc = c.procs id := by
    rw [hm.procs, hup]
    rfl
  rw [hproc, Function.update_eq_self]

end Fleet

namespace Server

variable [LawfulStore σ] {K : Setting σ} {h : History Nat Entry} {f : Fleet σ} {c : Cluster σ}
variable {id : Nat} {s s' : Server σ} {op : Op} {out : Raft.Output} {n : Node σ}

/-- What may leave the server after a call. -/
def Yields (op : Op) (out : Raft.Output) : Output → Prop
  | .sent m => m ∈ messagesOf out
  | .applied e => op = .applyEntries ∧ e ∈ entriesOf out
  | .replied _ _ => True

/-- A call of the node is an operation of the cluster. -/
theorem sim_call (s' : Server σ) (hsim : Raft.Sim K c h) (hm : (f.put id (.up s)).Mirrors c)
    (hop : OpSafe K h id s.node op) (hexec : op.exec s.node = .ok out n) (hnode : s'.node = n)
    (hout : ∀ o ∈ s'.output, o ∈ s.output ∨ Yields op out o) :
    ∃ c' h', Raft.Sim K c' h' ∧ History.Grows id h h' ∧ (f.put id (.up s')).Mirrors c' := by
  have hup : c.procs id = .up s.node := by
    have := hm.procs id
    simpa [Fleet.put, Host.proc] using this
  obtain ⟨h', hsim', hg⟩ := hsim.execOp hup hop
  refine ⟨_, h', hsim', hg, hm.put ?_ ?_ ?_⟩
  · simp [Raft.Cluster.execOp, hexec, Host.proc, hnode]
  · intro o ho
    simp only [Raft.Cluster.execOp, hexec]
    cases o with
    | sent m =>
      cases out with
      | messages messages => exact List.mem_append_left _ ho
      | nothing => exact ho
      | accepted ok => exact ho
      | entries entries => exact ho
    | applied e =>
      obtain ⟨hkind, a, ha, he⟩ := ho
      refine ⟨hkind, a, ?_, he⟩
      show a ∈ if op = .applyEntries then c.applied ++ s.node.applications else c.applied
      split
      · exact List.mem_append_left _ ha
      · exact ha
    | replied => trivial
  · intro o ho
    refine (hout o ho).imp_right fun hyields => ?_
    simp only [Raft.Cluster.execOp, hexec]
    cases o with
    | sent m =>
      cases out with
      | messages messages => exact List.mem_append_right _ hyields
      | nothing => cases hyields
      | accepted ok => cases hyields
      | entries entries => cases hyields
    | applied e =>
      obtain ⟨rfl, he⟩ := hyields
      obtain ⟨entries, n', hrun, hpure⟩ := bind_eq_ok.mp hexec
      cases hpure
      obtain ⟨_, rfl⟩ := Raft.applyEntries_ok hrun
      have hkind := Raft.unapplied_kind he
      rw [entriesOf, ← Raft.applications_entries] at he
      obtain ⟨a, ha, rfl⟩ := List.mem_map.mp he
      refine ⟨hkind, a, ?_, rfl⟩
      show a ∈ if Op.applyEntries = Op.applyEntries then c.applied ++ s.node.applications
        else c.applied
      rw [if_pos rfl]
      exact List.mem_append_right _ ha
    | replied => trivial

/-- A call in which the node panics. -/
theorem sim_panic {e : Panic} (hsim : Raft.Sim K c h) (hm : (f.put id (.up s)).Mirrors c)
    (hop : OpSafe K h id s.node op) (hexec : op.exec s.node = .error e n) :
    ∃ c' h', Raft.Sim K c' h' ∧ History.Grows id h h' ∧
      (f.put id (.ended (s.called op n))).Mirrors c' := by
  have hup : c.procs id = .up s.node := by
    have := hm.procs id
    simpa [Fleet.put, Host.proc] using this
  obtain ⟨h', hsim', hg⟩ := hsim.execOp hup hop
  refine ⟨_, h', hsim', hg, hm.put ?_ ?_ fun o ho => Or.inl ho⟩
  · simp [Raft.Cluster.execOp, hexec, Host.proc, Server.called]
  · intro o ho
    simp only [Raft.Cluster.execOp, hexec]
    exact ho

/-- A server that ends leaves its node as it is. -/
theorem sim_end (hsim : Raft.Sim K c h) (hm : (f.put id (.up s)).Mirrors c) :
    ∃ c', Raft.Sim K c' h ∧ (f.put id (.ended s)).Mirrors c' := by
  have hup : c.procs id = .up s.node := by
    have := hm.procs id
    simpa [Fleet.put, Host.proc] using this
  have hgood : Good K id h s.node := by
    have := hsim.procs id
    rwa [hup] at this
  refine ⟨_, hsim.update (p := .down s.node) hsim.sane (History.Grows.refl id h)
    (hgood.down hsim.sane) hsim.net hsim.applied, hm.put rfl (fun o ho => ?_) fun o ho => Or.inl ho⟩
  cases o with
  | sent m => exact ho
  | applied e => exact ho
  | replied => trivial

/-! ## Rounds -/

/-- The call with which a server takes an input. A mutation is only proposed when the
machine knows of no such request of the client, nor of a later one. -/
inductive Takes (s : Server σ) : Input → Op → Prop
  | message {m : Message} : Takes s (.message m) (.step m)
  | tick : Takes s .tick .tick
  | read {incoming : Request} (hop : incoming.value.operation = .get) :
    Takes s (.request incoming) (.startReadIndex (readContextOf incoming.value))
  | proposal {incoming : Request} {operation : Raft.CommandOp}
    (hop : commandOf incoming.value = some operation)
    (hcached : s.machine.cached incoming.value.clientID incoming.value.requestID = .ok none) :
    Takes s (.request incoming) (proposal incoming.value operation)

def Output.applied? : Output → Option Entry
  | .applied entry => some entry
  | _ => none

/-- What the machine was given in the last round, or at the start. -/
def given (s : Server σ) : List Entry := s.output.filterMap Output.applied?

/-- The machine is the one that the committed log up to the applied index computes, and what
it was given last are the last normal entries of that log. -/
def Reflects (h : History Nat Entry) (s : Server σ) : Prop :=
  ∃ t y, h.Committed t y ∧ y.length = s.node.applied ∧ s.machine = machineOf y ∧
    s.given <:+ normal y

/-- The call leaves the node as it is, or the store fails it and keeps what it had. -/
def Idles (n : Node σ) (op : Op) : Prop := ∃ out n', op.exec n = .ok out n' ∧ (n' = n ∨
  ∃ store err, n' = Raft.failed n store err ∧ LawfulStore.durable store = LawfulStore.durable n.store)

/-- What a round that ends in `s'` has to keep to. Where the machines are tracked, they are
those of the log. -/
structure RoundSafe (K : Setting σ) (track : Prop) (h : History Nat Entry) (id : Nat)
    (s : Server σ) (input : Input) (s' : Server σ) : Prop where
  take : ∀ op, Takes s input op → OpSafe K h id s.node op ∨ ¬ K.reliable ∧ Idles s.node op
  behind : track → ∀ m, input = .message m → ¬ s.node.Overtakes m
  image : ∀ y, (track → s'.machine = machineOf y) →
    K.Image y s'.machine.snapshot ∧ K.Own id y s'.machine.snapshot

variable {input : Input} {incoming : Request} {track : Prop}

omit [LawfulStore σ] in
theorem Reflects.grow {h' : History Nat Entry} (hr : s.Reflects h)
    (g : History.Grows id h h') : s.Reflects h' := by
  obtain ⟨t, y, hy, hrest⟩ := hr
  exact ⟨t, y, g.committed hy, hrest⟩

omit [LawfulStore σ] in
theorem Reflects.same (hr : s.Reflects h) (happlied : s'.node.applied = s.node.applied)
    (hmachine : s'.machine = s.machine) (hgiven : s'.given <:+ s.given) : s'.Reflects h := by
  obtain ⟨t, y, hy, hlen, hm, hlast⟩ := hr
  exact ⟨t, y, hy, hlen.trans happlied.symm, hmachine.trans hm, hgiven.trans hlast⟩

omit [LawfulStore σ] in
/-- Only what is applied is given to the machine. -/
theorem given_suffix {others : List Output} (hout : s'.output = s.output ++ others)
    (hothers : ∀ o ∈ others, o.applied? = none) : s'.given <:+ s.given := by
  unfold given
  rw [hout, List.filterMap_append, List.filterMap_eq_nil_iff.mpr hothers, List.append_nil]

/-- Taking an input calls the node at most once, and only answers leave the server. -/
theorem Taken.call (ht : Taken s input s') :
    (s'.node = s.node ∨ ∃ op out, Takes s input op ∧ op.exec s.node = .ok out s'.node) ∧
    s'.machine = s.machine ∧
    ∃ others, s'.output = s.output ++ others ∧ ∀ o ∈ others, ∃ reply response,
      o = .replied reply response := by
  have hnothing : ∃ others, s.output = s.output ++ others ∧ ∀ o ∈ others, ∃ reply response,
      o = .replied reply response :=
    ⟨[], (List.append_nil _).symm, fun o ho => nomatch ho⟩
  have hanswered : ∀ {t : Server σ} {status value} {incoming : Request}, t.output = s.output →
      ∃ others, (t.answered incoming status value).output = s.output ++ others ∧
        ∀ o ∈ others, ∃ reply response, o = .replied reply response := by
    intro t status value incoming ht
    refine ⟨_, congrArg (· ++ _) ht, fun o ho => ?_⟩
    exact ⟨_, _, List.mem_singleton.mp ho⟩
  cases ht with
  | message hexec => exact ⟨Or.inr ⟨_, _, .message, hexec⟩, rfl, hnothing⟩
  | tick hexec => exact ⟨Or.inr ⟨_, _, .tick, hexec⟩, rfl, hnothing⟩
  | request hh =>
    cases hh with
    | status => exact ⟨Or.inl rfl, rfl, hanswered rfl⟩
    | notLeader => exact ⟨Or.inl rfl, rfl, hanswered rfl⟩
    | readBusy => exact ⟨Or.inl rfl, rfl, hanswered rfl⟩
    | readRefused hop hexec => exact ⟨Or.inr ⟨_, _, .read hop, hexec⟩, rfl, hanswered rfl⟩
    | readParked hop _ _ hexec =>
      exact ⟨Or.inr ⟨_, _, .read hop, hexec⟩, rfl, hnothing⟩
    | invalid => exact ⟨Or.inl rfl, rfl, hanswered rfl⟩
    | cached => exact ⟨Or.inl rfl, rfl, hanswered rfl⟩
    | joined => exact ⟨Or.inl rfl, rfl, hnothing⟩
    | refused hop _ _ hexec _ hcached =>
      exact ⟨Or.inr ⟨_, _, .proposal hop hcached, hexec⟩, rfl, hanswered rfl⟩
    | proposed hop _ _ hcached hexec =>
      exact ⟨Or.inr ⟨_, _, .proposal hop hcached, hexec⟩, rfl, hnothing⟩

/-- The input is taken by an operation of the cluster. -/
theorem sim_taken (hsim : Raft.Sim K c h) (hm : (f.put id (.up s)).Mirrors c)
    (ht : Taken s input s')
    (hop : ∀ op, Takes s input op → OpSafe K h id s.node op ∨ ¬ K.reliable ∧ Idles s.node op) :
    ∃ c' h', Raft.Sim K c' h' ∧ History.Grows id h h' ∧ (f.put id (.up s')).Mirrors c' := by
  obtain ⟨hcall, _, others, houtput, hothers⟩ := ht.call
  have hout : ∀ o ∈ s'.output, o ∈ s.output ∨ ∃ reply response, o = .replied reply response := by
    intro o ho
    rw [houtput] at ho
    exact (List.mem_append.mp ho).imp_right (hothers o)
  have hup : c.procs id = .up s.node := by
    have := hm.procs id
    simpa [Fleet.put, Host.proc] using this
  have hgood : Good K id h s.node := by
    have := hsim.procs id
    rwa [hup] at this
  -- a call that leaves the node alone, or stops it without an effect, is no operation
  have hidle : Good K id h s'.node →
      ∃ c' h', Raft.Sim K c' h' ∧ History.Grows id h h' ∧ (f.put id (.up s')).Mirrors c' := by
    intro hgood'
    refine ⟨_, h, hsim.update (p := .up s'.node) hsim.sane (History.Grows.refl id h) hgood' hsim.net
      hsim.applied, History.Grows.refl id h, hm.put rfl (fun o ho => ?_) fun o ho => ?_⟩
    · cases o with
      | sent m => exact ho
      | applied e => exact ho
      | replied => trivial
    · exact (hout o ho).imp_right fun ⟨_, _, ho⟩ => ho ▸ trivial
  rcases hcall with hnode | ⟨op, out, htakes, hexec⟩
  · exact hidle (hnode ▸ hgood)
  · rcases hop op htakes with hsafe | ⟨hunreliable, out', n', hexec', hn'⟩
    · exact sim_call s' hsim hm hsafe hexec rfl fun o ho =>
        (hout o ho).imp_right fun ⟨_, _, ho⟩ => ho ▸ trivial
    · rw [hexec] at hexec'
      obtain rfl := (EStateM.Result.ok.inj hexec').2
      rcases hn' with hsame | ⟨store, err, hfailed, hdurable⟩
      · exact hidle (hsame ▸ hgood)
      · have hsettled : K.Traced → s.node.Settled K h id :=
          hgood.elim (fun hl _ => hl.settled hsim.sane) (·.settled)
        refine hidle (hfailed ▸ Or.inr ?_)
        exact Raft.dead_of_failed (hgood.down hsim.sane) hsettled (by rw [hdurable])
          (History.Grows.refl id h) (hdurable ▸ (hgood.down hsim.sane).dur) hunreliable

/-- An input that is no snapshot from beyond the applied index leaves that index alone. -/
theorem Taken.reflects (ht : Taken s input s') (hr : s.Reflects h)
    (hbehind : ∀ m, input = .message m → ¬ s.node.Overtakes m) : s'.Reflects h := by
  obtain ⟨hcall, hmachine, others, houtput, hothers⟩ := ht.call
  have happlied : s'.node.applied = s.node.applied := by
    rcases hcall with hnode | ⟨op, out, htakes, hexec⟩
    · rw [hnode]
    · refine Raft.exec_applied hexec ?_ ?_
      · rintro m rfl
        cases htakes
        exact hbehind m rfl
      · rintro rfl
        cases htakes
  refine hr.same happlied hmachine (given_suffix houtput fun o ho => ?_)
  obtain ⟨_, _, rfl⟩ := hothers o ho
  rfl

omit [LawfulStore σ] in
theorem applied_output (s : Server σ) (entries : List Entry) :
    ∀ o ∈ (s.afterEntries entries).output, o ∈ s.output ∨ (∃ e ∈ entries, o = .applied e) ∨
      ∃ reply response, o = .replied reply response ∧
        (response.status = .ok ∨ response.status = .invalid) := by
  induction entries generalizing s with
  | nil => exact fun o ho => Or.inl ho
  | cons entry entries ih =>
    intro o ho
    rcases ih (s.afterEntry entry) o ho with hin | ⟨e, he, rfl⟩ | hreply
    · rcases List.mem_append.mp hin with hold | hnew
      · exact Or.inl hold
      · rcases List.mem_cons.mp hnew with rfl | hreplied
        · exact Or.inr (Or.inl ⟨entry, List.mem_cons_self, rfl⟩)
        · obtain ⟨reply, _, rfl⟩ := List.mem_map.mp hreplied
          refine Or.inr (Or.inr ⟨_, _, rfl, ?_⟩)
          unfold responseTo
          cases (s.machine.apply entry).1.isOk <;> simp
    · exact Or.inr (Or.inl ⟨e, List.mem_cons_of_mem _ he, rfl⟩)
    · exact Or.inr (Or.inr hreply)

omit [LawfulStore σ] in
theorem given_afterEntries (s : Server σ) (entries : List Entry) :
    (s.afterEntries entries).given = s.given ++ entries := by
  induction entries generalizing s with
  | nil => exact (List.append_nil _).symm
  | cons entry entries ih =>
    have hentry : (s.afterEntry entry).given = s.given ++ [entry] := by
      simp [given, afterEntry, Output.applied?, Function.comp_def]
    show ((s.afterEntry entry).afterEntries entries).given = _
    rw [ih, hentry, List.append_assoc]
    rfl

/-- What the node hands out extends the log that the machine reflects. -/
theorem Reflects.applied {entries : List Entry} (hs : Sane K h) (hd : Down K id h s.node)
    (hr : s.Reflects h) (hexec : Op.applyEntries.exec s.node = .ok (.entries entries) n)
    (hnode : s'.node = n) (happlied : s'.machine = s.machine.applyAll entries)
    (hgiven : s'.given = s.given ++ entries) : s'.Reflects h := by
  obtain ⟨_, _, hrun, hpure⟩ := bind_eq_ok.mp hexec
  cases hpure
  obtain ⟨rfl, rfl⟩ := Raft.applyEntries_ok hrun
  obtain ⟨t, y, hy, hlen, hmachine, hlast⟩ := hr
  obtain ⟨z, hz, hzlen, hentries⟩ := hd.unapplied hs hy hlen
  have hle : s.node.applied ≤ s.node.commit := by
    obtain ⟨_, _, _, _, hac, _⟩ := hd.past
    exact hac
  refine ⟨_, y ++ z, hz, ?_, ?_, ?_⟩
  · rw [hnode, hzlen]
    exact (Nat.max_eq_right hle).symm
  · rw [happlied, machineOf_append, ← hentries, ← hmachine]
  · rw [hgiven, hentries]
    obtain ⟨front, hfront⟩ := hlast
    refine ⟨front, ?_⟩
    unfold normal at hfront ⊢
    rw [List.filter_append, ← hfront, List.append_assoc]

/-- The input is taken, and what the node has queued is sent. -/
theorem sim_sent {s₁ : Server σ} (hsim : Raft.Sim K c h) (hm : (f.put id (.up s)).Mirrors c)
    (ht : Taken s input s₁)
    (hop : ∀ op, Takes s input op → OpSafe K h id s.node op ∨ ¬ K.reliable ∧ Idles s.node op) :
    ∃ c' h', Raft.Sim K c' h' ∧ History.Grows id h h' ∧ (f.put id (.up s₁.afterSend)).Mirrors c' := by
  obtain ⟨c₁, h₁, hsim₁, hg₁, hm₁⟩ := sim_taken hsim hm ht hop
  have hdrain : Op.drain.exec s₁.node = .ok (.messages s₁.node.outbound) s₁.afterSend.node := rfl
  have hsafe : OpSafe K h₁ id s₁.node .drain := trivial
  obtain ⟨c₂, h₂, hsim₂, hg₂, hm₂⟩ := sim_call s₁.afterSend hsim₁ hm₁ hsafe hdrain rfl
    fun o ho => (List.mem_append.mp ho).imp_right fun hsent => by
      obtain ⟨m, hmem, rfl⟩ := List.mem_map.mp hsent
      exact hmem
  exact ⟨c₂, h₂, hsim₂, hg₁.trans hg₂, hm₂⟩

/-- Up to the compaction a round is a number of operations of the cluster. -/
theorem sim_applied {s₁ : Server σ} {entries : List Entry} (hsim : Raft.Sim K c h)
    (hm : (f.put id (.up s)).Mirrors c) (ht : Taken s input s₁)
    (happly : Op.applyEntries.exec s₁.afterSend.node = .ok (.entries entries) n)
    (hop : ∀ op, Takes s input op → OpSafe K h id s.node op ∨ ¬ K.reliable ∧ Idles s.node op)
    (hbehind : track → ∀ m, input = .message m → ¬ s.node.Overtakes m)
    (hr : track → s.Reflects h) :
    ∃ c' h', Raft.Sim K c' h' ∧ History.Grows id h h' ∧
      (f.put id (.up (s₁.afterSend.applied n entries))).Mirrors c' ∧
      (track → (s₁.afterSend.applied n entries).Reflects h') := by
  obtain ⟨c₂, h₂, hsim₂, hg₂, hm₂⟩ := sim_sent hsim hm ht hop
  have hsafe₂ : OpSafe K h₂ id s₁.afterSend.node .applyEntries := trivial
  obtain ⟨c₃, h₃, hsim₃, hg₃, hm₃⟩ := sim_call (s₁.afterSend.applied n entries) hsim₂ hm₂
    hsafe₂ happly (applied_node _ _ _) fun o ho => by
      rcases applied_output _ _ o ho with hin | ⟨e, he, rfl⟩ | ⟨_, _, rfl, _⟩
      · exact Or.inl hin
      · exact Or.inr ⟨rfl, he⟩
      · exact Or.inr trivial
  refine ⟨c₃, h₃, hsim₃, hg₂.trans hg₃, hm₃, fun htrack => ?_⟩
  have hgood : Good K id h₂ s₁.afterSend.node := by
    have hproc := hm₂.procs id
    simp only [Fleet.put, Function.update_self, Host.proc] at hproc
    have := hsim₂.procs id
    rwa [hproc] at this
  have hr₁ : s₁.Reflects h := ht.reflects (hr htrack) (hbehind htrack)
  have hr₂ : s₁.afterSend.Reflects h₂ := by
    refine (hr₁.grow hg₂).same rfl rfl (given_suffix rfl fun o ho => ?_)
    obtain ⟨_, _, rfl⟩ := List.mem_map.mp ho
    rfl
  have hmachine : (s₁.afterSend.applied n entries).machine =
      s₁.afterSend.machine.applyAll entries := by
    unfold Server.applied
    rw [afterEntries_eq]
    rfl
  exact (hr₂.applied hsim₂.sane (hgood.down hsim₂.sane) happly (applied_node _ _ _) hmachine
    (given_afterEntries _ _)).grow hg₃

/-- The machine is the one of every committed log of that length. -/
theorem Reflects.eq (hs : Sane K h) (hr : s.Reflects h) {t : Nat} {y : List Entry}
    (hy : h.Committed t y) (hlen : y.length = s.node.applied) :
    s.machine = machineOf y := by
  obtain ⟨u, z, hz, hzlen, hrest⟩ := hr
  have heq : z = y := by
    rcases hs.valid.committed_agree hz hy with hp | hp
    · exact hp.eq_of_length (hzlen.trans hlen.symm)
    · exact (hp.eq_of_length (hlen.trans hzlen.symm)).symm
  rw [heq] at hrest
  exact hrest.1

/-- The snapshot that a server takes is one of its log. -/
theorem compacts_safe (hfixed : ¬ K.reconf) (hs : Sane K h) (hr : track → s.Reflects h)
    (himage : ∀ y, (track → s.machine = machineOf y) →
      K.Image y s.machine.snapshot ∧ K.Own id y s.machine.snapshot) :
    OpSafe K h id s.node (.compact s.node.applied s.machine.snapshot) := by
  have hboth : ∀ y, y.length = s.node.applied → h.Committed (h.term id) y →
      K.Image y s.machine.snapshot ∧ K.Own id y s.machine.snapshot :=
    fun y hlen hy => himage y fun htrack => (hr htrack).eq hs hy hlen
  exact fun _ _ => {
    image := fun y hlen hy => (hboth y hlen hy).1
    own := fun y hlen hy => (hboth y hlen hy).2
    plain := fun hrec => absurd hrec hfixed }

/-- A completed round. -/
theorem sim_round (hfixed : ¬ K.reconf) (hsim : Raft.Sim K c h) (hm : (f.put id (.up s)).Mirrors c)
    (hround : Round s input true s')
    (hsafe : RoundSafe K track h id s input s') (hr : track → s.Reflects h) :
    ∃ c' h', Raft.Sim K c' h' ∧ History.Grows id h h' ∧ (f.put id (.up s')).Mirrors c' ∧
      (track → s'.Reflects h') := by
  cases hround with
  | @completed s₁ s₂ entries n htaken _ happly hcompact =>
    obtain ⟨c₁, h₁, hsim₁, hg₁, hm₁, hr₁⟩ :=
      sim_applied hsim hm htaken happly hsafe.take hsafe.behind hr
    -- answering reads changes neither the node nor the machine
    have hanswer : ∀ {c' : Cluster σ} {t : Server σ}, (f.put id (.up t)).Mirrors c' →
        (f.put id (.up t.afterReads)).Mirrors c' := by
      intro c' t hmt
      refine hmt.put ?_ (fun _ ho => ho) fun o ho => ?_
      · have hproc := hmt.procs id
        simp only [Fleet.put, Function.update_self, Host.proc] at hproc
        show c'.procs = update c'.procs id (.up t.node)
        rw [← hproc, Function.update_eq_self]
      · rcases List.mem_append.mp ho with hin | hreply
        · exact Or.inl hin
        · obtain ⟨read, _, hread⟩ := List.mem_filterMap.mp hreply
          obtain ⟨_, _, rfl⟩ := Option.map_eq_some_iff.mp hread
          exact Or.inr trivial
    have hreads : ∀ {h'} {t : Server σ}, t.Reflects h' → t.afterReads.Reflects h' := by
      intro h' t ht
      refine ht.same rfl rfl (given_suffix rfl fun o ho => ?_)
      obtain ⟨read, _, hread⟩ := List.mem_filterMap.mp ho
      obtain ⟨_, _, rfl⟩ := Option.map_eq_some_iff.mp hread
      rfl
    cases hcompact with
    | kept => exact ⟨c₁, h₁, hsim₁, hg₁, hanswer hm₁, fun htrack => hreads (hr₁ htrack)⟩
    | @called n' out _ hexec =>
      have hop := compacts_safe hfixed hsim₁.sane hr₁ hsafe.image
      obtain ⟨c₂, h₂, hsim₂, hg₂, hm₂⟩ := sim_call (Server.called _ _ n') hsim₁ hm₁ hop hexec rfl
        fun o ho => Or.inl ho
      refine ⟨c₂, h₂, hsim₂, hg₁.trans hg₂, hanswer hm₂, fun htrack => ?_⟩
      have happlied := Raft.exec_applied hexec (fun m hm => nomatch hm) (fun hm => nomatch hm)
      exact hreads (((hr₁ htrack).grow hg₂).same happlied rfl (List.suffix_refl _))

/-- A round that ends the server: the store failed, or the node panicked. -/
theorem sim_ended (hfixed : ¬ K.reconf) (hsim : Raft.Sim K c h) (hm : (f.put id (.up s)).Mirrors c)
    (hround : Round s input false s' ∨ Panicked s input s')
    (hsafe : RoundSafe K track h id s input s') (hr : track → s.Reflects h) :
    ∃ c' h', Raft.Sim K c' h' ∧ History.Grows id h h' ∧ (f.put id (.ended s')).Mirrors c' := by
  -- the call in which the node panics is not one that leaves it alone
  have htake : ∀ {op e n}, Takes s input op → op.exec s.node = .error e n →
      OpSafe K h id s.node op := by
    intro op e n htakes hexec
    refine (hsafe.take op htakes).resolve_right ?_
    rintro ⟨_, out, n', hok, _⟩
    rw [hexec] at hok
    cases hok
  rcases hround with hended | hpanic
  · cases hended with
    | ended htaken _ =>
      obtain ⟨c₁, h₁, hsim₁, hg₁, hm₁⟩ := sim_taken hsim hm htaken hsafe.take
      obtain ⟨c₂, hsim₂, hm₂⟩ := sim_end hsim₁ hm₁
      exact ⟨c₂, h₁, hsim₂, hg₁, hm₂⟩
  · cases hpanic with
    | message hexec => exact sim_panic hsim hm (htake .message hexec) hexec
    | tick hexec => exact sim_panic hsim hm (htake .tick hexec) hexec
    | read hop hexec => exact sim_panic hsim hm (htake (.read hop) hexec) hexec
    | proposal hop hexec hcached =>
      exact sim_panic hsim hm (htake (.proposal hop hcached) hexec) hexec
    | @apply _ s₁ _ _ htaken hexec =>
      obtain ⟨c₁, h₁, hsim₁, hg₁, hm₁⟩ := sim_sent hsim hm htaken hsafe.take
      have hop : OpSafe K h₁ id s₁.afterSend.node .applyEntries := trivial
      obtain ⟨c₂, h₂, hsim₂, hg₂, hm₂⟩ := sim_panic hsim₁ hm₁ hop hexec
      exact ⟨c₂, h₂, hsim₂, hg₁.trans hg₂, hm₂⟩
    | @compact _ s₁ _ entries _ n n' htaken happly hs₂ hexec =>
      subst hs₂
      obtain ⟨c₁, h₁, hsim₁, hg₁, hm₁, hr₁⟩ :=
        sim_applied hsim hm htaken happly hsafe.take hsafe.behind hr
      have hop := compacts_safe hfixed hsim₁.sane hr₁ hsafe.image
      obtain ⟨c₂, h₂, hsim₂, hg₂, hm₂⟩ := sim_panic hsim₁ hm₁ hop hexec
      exact ⟨c₂, h₂, hsim₂, hg₁.trans hg₂, hm₂⟩

/-! ## Starts -/

omit [LawfulStore σ] in
theorem replayEntries_output {entries : List Entry} {err : Option OpenError}
    (hrun : replayEntries entries s = .ok err s') :
    ∀ o ∈ s'.output, o ∈ s.output ∨ ∃ e ∈ entries, o = .applied e := by
  induction entries generalizing s with
  | nil =>
    cases hrun
    exact fun o ho => Or.inl ho
  | cons entry entries ih =>
    have hone : ∀ o ∈ (s.replayed entry).output, o ∈ s.output ∨ ∃ e ∈ entry :: entries,
        o = .applied e := by
      intro o ho
      refine (List.mem_append.mp ho).imp_right fun hnew => ?_
      exact ⟨entry, List.mem_cons_self, List.mem_singleton.mp hnew⟩
    rw [replayEntries_cons] at hrun
    split at hrun
    · cases hrun
      exact hone
    · intro o ho
      rcases ih hrun o ho with hin | ⟨e, he, rfl⟩
      · exact hone o hin
      · exact Or.inr ⟨e, List.mem_cons_of_mem _ he, rfl⟩

omit [LawfulStore σ] in
/-- A replay without an error is one that the machine accepts. -/
theorem replayEntries_none {entries : List Entry} (hrun : replayEntries entries s = .ok none s') :
    s.machine.Accepts entries ∧ s'.machine = s.machine.applyAll entries ∧
      s'.given = s.given ++ entries := by
  induction entries generalizing s with
  | nil =>
    cases hrun
    exact ⟨trivial, rfl, (List.append_nil _).symm⟩
  | cons entry entries ih =>
    rw [replayEntries_cons] at hrun
    split at hrun
    · cases hrun
    · rename_i result hok
      obtain ⟨haccepts, hmachine, hgiven⟩ := ih hrun
      refine ⟨⟨by rw [hok]; rfl, haccepts⟩, hmachine, ?_⟩
      rw [hgiven]
      simp [given, replayed, Output.applied?]

/-- What the machine starts from. -/
def Restored (recovery : Recovery) (machine : Machine) : Prop :=
  if recovery.snapshot.lastIndex ≠ 0 ∧ recovery.snapshot.state ≠ [] then
    Machine.restore recovery.snapshot.state = some machine
  else machine = Machine.new

omit [LawfulStore σ] in
/-- The machine is restored, and the committed log behind the snapshot is replayed. -/
theorem replay_eq [Raft.StableStore σ] (recovery : Recovery) (hnew : s.machine = .new) :
    ((∀ machine, ¬ Restored recovery machine) ∧ replay recovery s = .ok (some .badSnapshot) s) ∨
      ∃ machine, Restored recovery machine ∧ replay recovery s =
        (do replayEntries (entriesOf (← call .applyEntries))) { s with machine := machine } := by
  by_cases hsnap : recovery.snapshot.lastIndex ≠ 0 ∧ recovery.snapshot.state ≠ []
  · cases hmachine : Machine.restore recovery.snapshot.state with
    | none =>
      refine .inl ⟨fun machine hr => ?_, ?_⟩
      · rw [Restored, if_pos hsnap, hmachine] at hr
        cases hr
      · rw [replay, if_pos hsnap, hmachine]
        rfl
    | some machine =>
      refine .inr ⟨machine, ?_, ?_⟩
      · rw [Restored, if_pos hsnap, hmachine]
      · rw [replay, if_pos hsnap, hmachine]
        rfl
  · refine .inr ⟨.new, ?_, ?_⟩
    · rw [Restored, if_neg hsnap]
    · rw [replay, if_neg hsnap, ← hnew]

omit [LawfulStore σ] in
theorem replay_cases [Raft.StableStore σ] {recovery : Recovery} {err : Option OpenError}
    (hnew : s.machine = .new) (hrun : replay recovery s = .ok err s') :
    (err = some .badSnapshot ∧ s' = s ∧ ∀ machine, ¬ Restored recovery machine) ∨
      ∃ machine entries n, Restored recovery machine ∧
      Op.applyEntries.exec s.node = .ok (.entries entries) n ∧
      replayEntries entries ({ s with machine := machine }.called .applyEntries n) = .ok err s' := by
  rcases replay_eq recovery hnew with ⟨hno, heq⟩ | ⟨machine, hr, heq⟩
  · rw [heq] at hrun
    cases hrun
    exact .inl ⟨rfl, rfl, hno⟩
  · rw [heq] at hrun
    obtain ⟨out, t₁, hcall, hrun⟩ := bind_eq_ok.mp hrun
    obtain ⟨n, hexec, rfl⟩ := call_eq_ok.mp hcall
    obtain ⟨entries, _, _, hpure⟩ := bind_eq_ok.mp hexec
    cases hpure
    exact .inr ⟨machine, entries, n, hr, hexec, hrun⟩

/-- A machine that is restored from a snapshot in the node's own store is the one of the
log that the snapshot covers. -/
theorem Restored.reflects {recovery : Recovery} {machine : Machine} (config : Config)
    (hown : ∀ y st, K.Own id y st → st = (machineOf y).snapshot)
    (hsnap : recovery.snapshot = {} ∨ Raft.OwnFact K h id recovery.snapshot)
    (happlied : n.applied = recovery.snapshot.lastIndex) (hr : Restored recovery machine) :
    ({ config := config, node := n, machine := machine } : Server σ).Reflects h := by
  unfold Restored at hr
  rcases hsnap with hempty | ⟨y, hne, hy, ⟨hindex, _, _, _⟩, hstate⟩
  · rw [hempty] at hr happlied
    rw [if_neg (by simp)] at hr
    exact ⟨0, [], Or.inl rfl, happlied.symm, hr, List.nil_suffix⟩
  · replace hstate := hown y _ hstate
    have hpos : recovery.snapshot.lastIndex ≠ 0 := by
      rw [hindex]
      exact fun h0 => hne (List.eq_nil_of_length_eq_zero h0)
    have hbytes : recovery.snapshot.state ≠ [] := by
      rw [hstate, StateMachine.Machine.snapshot_eq]
      exact List.cons_ne_nil _ _
    rw [if_pos ⟨hpos, hbytes⟩, hstate, StateMachine.Machine.restore_snapshot] at hr
    obtain ⟨_, hmachine⟩ := Option.ite_none_right_eq_some.mp hr
    exact ⟨_, y, hy, hindex.symm.trans happlied.symm, (Option.some.inj hmachine).symm,
      List.nil_suffix⟩

/-- A start is a restart of the node, and it applies what is committed. -/
theorem sim_start {config : Config} {store : σ} {recovery : Recovery} {err : Option OpenError}
    (hfixed : ¬ K.reconf) (hsim : Raft.Sim K c h) (hm : f.Mirrors c)
    (hs : (f.hosts id).server? = some s) (hid : config.id = id)
    (hv : initialVoters id config.peerIDs = .ok K.voters)
    (hopen : OpenStore.reopen s.node.store = some (store, recovery))
    (hserver : openServer config store recovery = .ok (s', err))
    (hown : track → ∀ y st, K.Own id y st → st = (machineOf y).snapshot) :
    ∃ c' h', Raft.Sim K c' h' ∧ History.Grows id h h' ∧ (f.put id (.up s')).Mirrors c' ∧
      (err = none → track → s'.Reflects h') := by
  obtain ⟨n, hrec, hreplay⟩ := openServer_ok hserver
  rw [hid] at hrec
  have hnode : (c.procs id).node? = some s.node := by
    rw [hm.procs]
    exact Host.proc_node? hs
  have hd := ProcInv.down hsim.sane (hsim.procs id) hnode
  obtain ⟨h₁, hs₁, hg₁, hgood, hrun⟩ := Raft.recover_good hsim.sane hd hv
    (fun hrec => absurd hrec hfixed) hopen hrec
  have hrunning : n.faulted = false := hrun fun hrec => absurd hrec hfixed
  have hsim₁ := hsim.update (p := .up n) hs₁ hg₁ hgood (fun m hm => (hsim.net m hm).grow hg₁)
    fun a ha => (hsim.applied a ha).grow hg₁
  have hm₁ : (f.put id (.up { config := config, node := n })).Mirrors
      { procs := update c.procs id (.up n), net := c.net, applied := c.applied } := by
    refine hm.set rfl (fun o ho => ?_) rfl
    cases o with
    | sent m => exact ho
    | applied e => exact ho
    | replied => trivial
  rcases replay_cases rfl hreplay with ⟨rfl, rfl, _⟩ | ⟨machine, entries, n', hr, hexec, hentries⟩
  · exact ⟨_, h₁, hsim₁, hg₁, hm₁, fun herr => nomatch herr⟩
  · have hframe := replayEntries_frame hentries
    have hnode' : s'.node = n' := by
      rw [hframe]
      rfl
    have hop : OpSafe K h₁ id n .applyEntries := trivial
    obtain ⟨c₂, h₂, hsim₂, hg₂, hm₂⟩ := sim_call s' hsim₁ hm₁ hop hexec hnode' fun o ho => by
      rcases replayEntries_output hentries o ho with hin | ⟨e, he, rfl⟩
      · exact Or.inl hin
      · exact Or.inr ⟨rfl, he⟩
    refine ⟨c₂, h₂, hsim₂, hg₁.trans hg₂, hm₂, fun herr htrack => ?_⟩
    subst herr
    obtain ⟨_, hmachine, hgiven⟩ := replayEntries_none hentries
    have hlive := hgood.resolve_right fun hdead => by
      rw [hdead.stopped] at hrunning
      cases hrunning
    have hsnap : recovery.snapshot = {} ∨ Raft.OwnFact K h₁ id recovery.snapshot := by
      have : Inhabited σ := ⟨s.node.store⟩
      have hdur := hlive.dur.snapshot
      rw [Raft.recover_store hrec] at hdur
      rw [(LawfulStore.reopen_settles s.node.store store recovery hopen).2]
      exact hdur
    have hr₀ := Restored.reflects config (hown htrack) hsnap
      (Raft.recover_applied hrec hrunning) hr
    exact (hr₀.applied hs₁ (hgood.down hs₁) hexec hnode' hmachine hgiven).grow hg₂

end Server

/-! ## Runs of a fleet -/

/-- A history supports the fleet, and the machines that are tracked reflect it. -/
structure FleetSim [LawfulStore σ] (K : Setting σ) (track : Prop) (f : Fleet σ) (c : Cluster σ)
    (h : History Nat Entry) : Prop where
  mirrors : f.Mirrors c
  sim : Raft.Sim K c h
  machines : ∀ id s, f.hosts id = .up s → track → s.Reflects h

namespace FleetSim

variable [LawfulStore σ] {K : Setting σ} {track : Prop} {f f' : Fleet σ}
variable {c : Cluster σ} {h h' : History Nat Entry} {id : Nat} {s : Server σ}

/-- The node of a server that runs. -/
theorem good (hf : FleetSim K track f c h) (hup : f.hosts id = .up s) :
    Good K id h s.node := by
  have hp := hf.sim.procs id
  rw [hf.mirrors.procs, hup] at hp
  exact hp

/-- Only the host that something happens at has to be looked at. -/
theorem put (hf : FleetSim K track f c h) {c' : Cluster σ} {host : Host σ}
    (hm : (f.put id host).Mirrors c') (hsim : Raft.Sim K c' h') (g : History.Grows id h h')
    (hhost : ∀ s, host = .up s → track → s.Reflects h') :
    FleetSim K track (f.put id host) c' h' where
  mirrors := hm
  sim := hsim
  machines id' s hup htrack := by
    by_cases hid : id' = id
    · subst hid
      simp only [Fleet.put, Function.update_self] at hup
      exact hhost s hup htrack
    · simp only [Fleet.put, Function.update_of_ne hid] at hup
      exact (hf.machines id' s hup htrack).grow g

/-- The server of a host takes an input. -/
theorem act_input {input : Server.Input} (hfixed : ¬ K.reconf) (hf : FleetSim K track f c h)
    (hact : f.act id (.input input) = some f')
    (hsafe : ∀ s s', f.hosts id = .up s → (f'.hosts id).server? = some s' →
      Server.RoundSafe K track h id s.fresh input s') :
    ∃ c' h', FleetSim K track f' c' h' ∧ History.Grows id h h' := by
  obtain ⟨host, hnext, rfl⟩ := Fleet.act_eq_some.mp hact
  simp only [Function.update_self] at hsafe
  have hr : ∀ s, f.hosts id = .up s → track → s.fresh.Reflects h := fun s hup htrack =>
    (hf.machines id s hup htrack).same rfl rfl List.nil_suffix
  -- a round that ends the server
  have hend : ∀ {s s'}, f.hosts id = .up s → host = .ended s' →
      Server.Round s.fresh input false s' ∨ Server.Panicked s.fresh input s' →
      ∃ c' h', FleetSim K track (f.put id host) c' h' ∧ History.Grows id h h' := by
    rintro s s' hup rfl hround
    obtain ⟨c', h', hsim', hg, hm'⟩ := Server.sim_ended hfixed hf.sim (hf.mirrors.begin hup) hround
      (hsafe s s' hup rfl) (hr s hup)
    exact ⟨c', h', hf.put hm' hsim' hg (fun _ hs => by cases hs), hg⟩
  cases Host.passed_of_some hnext with
  | returned hup hloop => exact hend hup rfl (Or.inl (Server.round_of_ok hloop))
  | panicked hup hloop => exact hend hup rfl (Or.inr (Server.panicked_of_error hloop))
  | @completed _ s s' hup hloop =>
    obtain ⟨c', h', hsim', hg, hm', hr'⟩ := Server.sim_round hfixed hf.sim (hf.mirrors.begin hup)
      (Server.round_of_ok hloop) (hsafe s s' hup rfl) (hr s hup)
    refine ⟨c', h', hf.put hm' hsim' hg fun s₁ hs => ?_, hg⟩
    cases hs
    exact hr'

/-- A host is restarted. -/
theorem act_restart {config : Server.Config} (hfixed : ¬ K.reconf)
    (hown : track → ∀ y st, K.Own id y st → st = (machineOf y).snapshot)
    (hf : FleetSim K track f c h) (hid : config.id = id)
    (hv : initialVoters id config.peerIDs = .ok K.voters)
    (hact : f.act id (.restart config) = some f') :
    ∃ c' h', FleetSim K track f' c' h' ∧ History.Grows id h h' := by
  obtain ⟨host, hnext, rfl⟩ := Fleet.act_eq_some.mp hact
  cases Host.passed_of_some hnext with
  | started hs _ hopen hserver =>
    obtain ⟨c₁, h₁, hsim₁, hg₁, hm₁, hr₁⟩ :=
      Server.sim_start hfixed hf.sim hf.mirrors hs hid hv hopen hserver hown
    refine ⟨c₁, h₁, hf.put hm₁ hsim₁ hg₁ fun s₂ hs₂ => ?_, hg₁⟩
    cases hs₂
    exact hr₁ rfl
  | refused hs _ hopen hserver =>
    obtain ⟨c₁, h₁, hsim₁, hg₁, hm₁, _⟩ :=
      Server.sim_start hfixed hf.sim hf.mirrors hs hid hv hopen hserver hown
    obtain ⟨c₂, hsim₂, hm₂⟩ := Server.sim_end hsim₁ hm₁
    exact ⟨c₂, h₁, hf.put hm₂ hsim₂ hg₁ (fun _ hs₂ => by cases hs₂), hg₁⟩

/-- What an event that leads to `f'` has to keep to. -/
def Safe (K : Setting σ) (track : Prop) (f : Fleet σ) (h : History Nat Entry) (f' : Fleet σ) :
    Fleet.Event → Prop
  | .deliver id m => Rounds id (.message m)
  | .request id request => Rounds id (.request ⟨request, f.requests.length⟩)
  | .tick id => Rounds id .tick
  | .refuse _ _ | .restart _ _ => True
where
  /-- The round of the host is safe. -/
  Rounds (id : Nat) (input : Server.Input) : Prop :=
    ∀ s s', f.hosts id = .up s → (f'.hosts id).server? = some s' →
      Server.RoundSafe K track h id s.fresh input s'

/-- An event is safe when the messages, the proposals and the machines are, and no read is
followed. -/
theorem safe_of_step {ev : Fleet.Event} (hf : FleetSim K track f c h) (hfresh : ¬ K.fresh)
    (hstep : f.step K.voters ev = some f')
    (hmessage : ∀ id m s, ev = .deliver id m → f.hosts id = .up s →
      Raft.StepSafe K s.node m ∧ (track → ¬ s.node.Overtakes m))
    (hproposal : ∀ id r s operation, ev = .request id r → f.hosts id = .up s →
      Server.commandOf r = some operation → s.machine.cached r.clientID r.requestID = .ok none →
      OpSafe K h id s.node (Server.proposal r operation) ∨
        ¬ K.reliable ∧ Server.Idles s.node (Server.proposal r operation))
    (himage : ∀ id s' y, (f'.hosts id).server? = some s' → (track → s'.machine = machineOf y) →
      K.Image y s'.machine.snapshot ∧ K.Own id y s'.machine.snapshot) : Safe K track f h f' ev := by
  cases Fleet.stepped_of_some hstep with
  | @deliver id m _ hnet hto =>
    refine fun s s' hup hs' => ⟨fun op htakes => Or.inl ?_, fun ht m hm => ?_,
      fun y => himage id s' y hs'⟩
    · cases htakes
      exact ⟨hf.sim.net _ (hf.mirrors.net hnet), hto, (hmessage id m s rfl hup).1⟩
    · cases hm
      exact (hmessage id m s rfl hup).2 ht
  | @request id r =>
    refine fun s s' hup hs' => ⟨fun op htakes => ?_, fun _ m hm => ?_, fun y => himage id s' y hs'⟩
    · cases htakes with
      | read => exact Or.inl fun hk => absurd hk hfresh
      | proposal hop hcached => exact hproposal id r s _ rfl hup hop hcached
    · cases hm
  | refuse => trivial
  | @tick id =>
    refine fun s s' hup hs' => ⟨fun op htakes => Or.inl ?_, fun _ m hm => ?_,
      fun y => himage id s' y hs'⟩
    · cases htakes
      trivial
    · cases hm
  | restart => trivial

/-- An event of the fleet keeps the relation. -/
theorem step {ev : Fleet.Event} (hfixed : ¬ K.reconf)
    (hown : track → ∀ id y st, K.Own id y st → st = (machineOf y).snapshot)
    (hf : FleetSim K track f c h) (hstep : f.step K.voters ev = some f')
    (hsafe : Safe K track f h f' ev) :
    ∃ c' h', FleetSim K track f' c' h' ∧ History.Later h h' := by
  have hlater : ∀ {id}, (∃ c' h', FleetSim K track f' c' h' ∧ History.Grows id h h') →
      ∃ c' h', FleetSim K track f' c' h' ∧ History.Later h h' :=
    fun ⟨c', h', hf', hg⟩ => ⟨c', h', hf', History.Later.of_grows hg⟩
  cases Fleet.stepped_of_some hstep with
  | deliver _ _ hact => exact hlater (hf.act_input hfixed hact hsafe)
  | @request _ request _ hact =>
    -- the list of requests is no part of the relation
    have hf₁ : FleetSim K track { f with requests := f.requests ++ [request] } c h :=
      ⟨⟨hf.mirrors.procs, hf.mirrors.record⟩, hf.sim, hf.machines⟩
    exact hlater (hf₁.act_input hfixed hact hsafe)
  | refuse =>
    refine ⟨c, h, ⟨⟨hf.mirrors.procs, fun x hx => ?_⟩, hf.sim, hf.machines⟩, History.Later.refl h⟩
    rcases List.mem_append.mp hx with hold | hnew
    · exact hf.mirrors.record x hold
    · rw [List.mem_singleton.mp hnew]
      trivial
  | tick hact => exact hlater (hf.act_input hfixed hact hsafe)
  | restart hid hv hact => exact hlater (hf.act_restart hfixed (hown · _) hid hv hact)

/-- A run keeps the relation, and every state of it is related to an earlier history. -/
theorem run_all {p : Fleet σ → Fleet.Event → Prop} {events : List Fleet.Event}
    (hfixed : ¬ K.reconf)
    (hown : track → ∀ id y st, K.Own id y st → st = (machineOf y).snapshot)
    (hp : ∀ f c h ev f', FleetSim K track f c h → p f ev → f.step K.voters ev = some f' →
      Safe K track f h f' ev)
    (hf : FleetSim K track f c h)
    (halways : Runs.Always (Fleet.step K.voters) p f events)
    (hrun : Runs.run (Fleet.step K.voters) f events = some f') :
    ∃ c' h', FleetSim K track f' c' h' ∧ History.Later h h' ∧ ∀ before after f₁,
      events = before ++ after → Runs.run (Fleet.step K.voters) f before = some f₁ →
      ∃ c₁ h₁, FleetSim K track f₁ c₁ h₁ ∧ History.Later h₁ h' := by
  induction events generalizing f c h with
  | nil =>
    cases hrun
    refine ⟨c, h, hf, History.Later.refl h, fun before after f₁ hsplit hrun₁ => ?_⟩
    obtain ⟨rfl, rfl⟩ := List.append_eq_nil_iff.mp hsplit.symm
    cases hrun₁
    exact ⟨c, h, hf, History.Later.refl h⟩
  | cons ev events ih =>
    obtain ⟨f₂, hstep, hrest⟩ := Runs.run_cons.mp hrun
    obtain ⟨c₂, h₂, hf₂, hl₂⟩ := hf.step hfixed hown hstep (hp f c h ev f₂ hf halways.1 hstep)
    obtain ⟨c', h', hf', hl', hall⟩ := ih hf₂ (halways.2 f₂ hstep) hrest
    refine ⟨c', h', hf', hl₂.trans hl', fun before after f₁ hsplit hrun₁ => ?_⟩
    cases before with
    | nil =>
      cases hrun₁
      exact ⟨c, h, hf, hl₂.trans hl'⟩
    | cons ev' before =>
      rw [List.cons_append, List.cons.injEq] at hsplit
      obtain ⟨rfl, hsplit⟩ := hsplit
      obtain ⟨f₃, hstep', hrun₃⟩ := Runs.run_cons.mp hrun₁
      rw [hstep] at hstep'
      cases hstep'
      exact hall before after f₁ hsplit hrun₃

end FleetSim

/-- A new fleet has the empty history. -/
theorem Fleet.Initial.sim [LawfulStore σ] {K : Setting σ} {f : Fleet σ} (track : Prop)
    (hinit : f.Initial K.voters) (hstart : ∀ a x, K.started a x = none) :
    ∃ c, FleetSim K track f c History.empty := by
  have hnew : ∀ id, f.hosts id = .absent ∨ ∃ config store s n, config.id = id ∧
      LawfulStore.durable store = {} ∧ f.hosts id = .up s ∧ s = { config := config, node := n } ∧
      Raft.newNodeWithStore id config.peerIDs config.timeout store = .ok n ∧
      n.votersOld = K.voters := by
    intro id
    rcases hinit.hosts id with habsent | ⟨config, store, s, hnew, rfl, hvoters, hempty, hup⟩
    · exact Or.inl habsent
    · obtain ⟨n, hn, rfl⟩ := Host.new_ok hnew
      exact Or.inr ⟨config, store, _, n, rfl, hempty, hup, rfl, hn, hvoters⟩
  have hcluster : Raft.Cluster.Initial K.voters
      ({ procs := fun id => (f.hosts id).proc } : Cluster σ) := by
    refine ⟨fun id => ?_, rfl, rfl⟩
    rcases hnew id with habsent | ⟨config, store, s, n, _, hempty, hup, rfl, hn, hvoters⟩
    · exact Or.inl (by simp [habsent, Host.proc])
    · exact Or.inr ⟨config.peerIDs, config.timeout, store, n, hn, hvoters, hempty, by
        simp [hup, Host.proc]⟩
  refine ⟨_, ⟨fun _ => rfl, fun x hx => ?_⟩, hcluster.sim hstart, fun id s hs _ => ?_⟩
  · rw [hinit.record] at hx
    cases hx
  · rcases hnew id with habsent | ⟨config, store, s₁, n, _, _, hup, rfl, hn, _⟩
    · rw [habsent] at hs
      cases hs
    · rw [hup] at hs
      cases hs
      obtain ⟨_, _, rfl⟩ := Raft.newNodeWithStore_cases hn
      exact ⟨0, [], Or.inl rfl, rfl, rfl, List.nil_suffix⟩

end Promtact
