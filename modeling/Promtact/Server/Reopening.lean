import Promtact.Server.Agreement

/-!
# What the live server accepted, and what a restart accepts

The loop of a server goes on when its machine refuses a committed entry, and `Open` does
not: the replay ends with the first error. A machine refuses a mutation with a RequestID
below one that it has applied for the same client. So a restart accepts the data directory
of a server if every log has the mutations of each client in the order of their RequestIDs.

A leader that takes a mutation compares it with what its machine has applied, but not with
the entries of its log above the applied index. As long as no mutation is taken that is out
of order with one of those, every log is in order (`InOrder`). In `crossedRun` one is: the
server goes on, and its directory does not open any more.
-/

namespace Promtact

open Function (update)
open QuorumLog
open Protocol (ClientRequest)
open Raft (Node Message Word Entry Op Disk LawfulStore OpenStore StableStore Setting OpSafe Safe
  Local Recovery initialVoters)
open Raft.Node (indexes)
open StateMachine (Machine Mutates normal machineOf machineOf_append)

variable {σ : Type}

/-! ## Logs in order -/

namespace StateMachine

variable {entries x : List Entry} {e : Entry}

theorem effective_subset (entries : List Entry) : effective entries ⊆ entries := by
  induction entries using List.reverseRecOn with
  | nil => exact fun _ he => he
  | append_singleton entries e ih =>
    intro e' he
    rw [effective_append, List.foldl_cons, List.foldl_nil, takeIn] at he
    split at he
    · exact (List.mem_append.mp he).elim (fun h => List.mem_append_left _ (ih h))
        (List.mem_append_right _)
    · exact List.mem_append_left _ (ih he)

/-- A mutation took effect, or one of its client with a number that is not smaller did. -/
theorem exists_effective (he : e ∈ entries) (hm : Mutates e) :
    ∃ e' ∈ effective entries, e'.clientID = e.clientID ∧ e.requestID ≤ e'.requestID := by
  induction entries using List.reverseRecOn with
  | nil => cases he
  | append_singleton entries last ih =>
    rw [effective_append, List.foldl_cons, List.foldl_nil]
    rcases List.mem_append.mp he with hold | hnew
    · obtain ⟨e', he', hrest⟩ := ih hold
      exact ⟨e', (takeIn_sublist _ _).subset he', hrest⟩
    · obtain rfl := List.mem_singleton.mp hnew
      by_cases hfresh : Fresh (effective entries) e
      · exact ⟨e, by simp [takeIn, hfresh], rfl, BitVec.le_refl _⟩
      · -- an effective entry of the client is in the way
        have hno : ¬ ∀ e' ∈ effective entries, e'.clientID = e.clientID →
            e'.requestID < e.requestID := fun h => hfresh ⟨hm, h⟩
        push Not at hno
        obtain ⟨e', he', hclient, hle⟩ := hno
        exact ⟨e', (takeIn_sublist _ _).subset he', hclient, BitVec.not_lt.mp hle⟩

/-- What the machine has not seen is above every mutation of the client that it has. -/
theorem Machine.cached_none {client number : Word}
    (hcached : (Machine.new.applyAll entries).cached client number = .ok none) (he : e ∈ entries)
    (hm : Mutates e) (hclient : e.clientID = client) : e.requestID ≤ number := by
  obtain ⟨e', he', hclient', hle⟩ := exists_effective he hm
  obtain ⟨record, hrecord, hle'⟩ := (Machine.tracks_effective entries).known e' he'
  rw [hclient', hclient] at hrecord
  unfold Machine.cached at hcached
  simp only [hrecord] at hcached
  split at hcached
  · rename_i hgt
    bv_omega
  · split at hcached <;> cases hcached

/-- The entry is a mutation that may follow the log: no mutation of the client in it has a
larger RequestID. -/
def InOrder (x : List Entry) (e : Entry) : Prop :=
  Mutates e ∧ ∀ e' ∈ normal x, e'.clientID = e.clientID → e'.requestID ≤ e.requestID

/-- The machine behind a log accepts an entry that may follow it. -/
theorem InOrder.apply_ok (h : InOrder x e) : ((machineOf x).apply e).1.isOk = true := by
  obtain ⟨hm, hle⟩ := h
  have hexecute : ((machineOf x).execute e).1.isOk = true := by
    obtain ⟨result, hresult, _⟩ := Machine.execute_mutates (machineOf x) hm
    rw [hresult]
    rfl
  have hop : e.operation ≠ .legacy := by
    rcases hm with hop | hop <;> simp [hop]
  unfold Machine.apply
  rw [if_neg hop]
  cases hrecord : (machineOf x).clients[e.clientID]? with
  | none => exact hexecute
  | some record =>
    obtain ⟨e', he', hclient, hrequest⟩ :=
      (Machine.tracks_effective (normal x)).last _ _ hrecord
    have hnot := hle e' (effective_subset _ he') hclient
    rw [hrequest] at hnot
    dsimp only
    split
    · rfl
    · rw [if_neg (BitVec.not_lt.mpr hnot)]
      exact hexecute

/-- A machine accepts a log in which every normal entry may follow what is in front of it. -/
theorem accepts_of_inOrder
    (hx : ∀ y e, y ++ [e] <+: x → e.kind = .normal → InOrder y e) :
    Machine.new.Accepts (normal x) := by
  induction x using List.reverseRecOn with
  | nil => trivial
  | append_singleton x e ih =>
    unfold normal
    rw [List.filter_append, Machine.accepts_append]
    refine ⟨ih fun y e' hpre => hx y e' (hpre.trans (List.prefix_append _ _)), ?_⟩
    by_cases hkind : e.kind = .normal
    · simpa [hkind, Machine.Accepts, machineOf, normal] using
        (hx x e List.prefix_rfl hkind).apply_ok
    · simp [hkind, Machine.Accepts]

/-- The counts of a snapshot have room for the keys and the clients. -/
def Machine.Countable (m : Machine) : Prop :=
  m.values.toList.length < 2 ^ 32 ∧ m.clients.toList.length < 2 ^ 32

instance (m : Machine) : Decidable m.Countable := by
  unfold Machine.Countable
  infer_instance

end StateMachine

open StateMachine (InOrder)

/-! ## What a server between two rounds has applied -/

namespace Server

/-- Between two rounds everything that is committed is applied. -/
def CaughtUp (s : Server σ) : Prop := Safe {} s.node ∧ s.node.commit ≤ s.node.applied

theorem CaughtUp.start [OpenStore σ] {s : Server σ} {config : Config} {store : σ}
    {recovery : Recovery}
    (hopen : openServer config store recovery = .ok (s, none)) : s.CaughtUp := by
  refine ⟨(Host.start_local (W := {}) (fun _ _ => False.elim) hopen).1.1, ?_⟩
  obtain ⟨n, _, hreplay⟩ := openServer_ok hopen
  rcases replay_cases rfl hreplay with ⟨herr, _⟩ | ⟨_, entries, n', _, hexec, hentries⟩
  · cases herr
  · obtain ⟨_, _, hrun, hpure⟩ := bind_eq_ok.mp hexec
    cases hpure
    obtain ⟨rfl, rfl⟩ := Raft.applyEntries_ok hrun
    rw [replayEntries_frame hentries]
    exact Nat.le_max_right _ _

variable [StableStore σ] {s s' : Server σ} {input : Input}

theorem Round.caughtUp (hr : Round s input true s') (hsafe : Safe {} s.node) : s'.CaughtUp := by
  refine ⟨hr.keeps hsafe (fun m out n _ hexec => ?_) fun hexec _ hI => ?_, ?_⟩
  · exact Raft.exec_safe hsafe (fun _ => Raft.opLocal_free _ _) hexec
  · exact Raft.exec_safe hI (fun _ => Raft.opLocal_free _ _) hexec
  · cases hr with
    | completed _ _ happly hcompact =>
      obtain ⟨_, n, hrun, hpure⟩ := bind_eq_ok.mp happly
      cases hpure
      obtain ⟨rfl, rfl⟩ := Raft.applyEntries_ok hrun
      generalize hs₂ : applied _ _ _ = s₂ at hcompact
      have hle : s₂.node.commit ≤ s₂.node.applied := by
        rw [← hs₂, applied_node]
        exact Nat.le_max_right _ _
      cases hcompact with
      | kept => exact hle
      | called _ hexec =>
        obtain ⟨_, _, hrun, hpure⟩ := bind_eq_ok.mp hexec
        cases hpure
        cases Raft.compact_ok hrun with
        | refused => exact hle
        | stopped _ hsame =>
          obtain ⟨_, _, hcommit, happlied⟩ := hsame
          exact hcommit.trans_le (hle.trans_eq happlied.symm)
        | compacted => exact hle

/-! ## What a run has to keep to -/

/-- The node takes over a snapshot of a peer. -/
def Installs (s : Server σ) (m : Message) : Prop :=
  s.node.faulted = false ∧ m.type = .installSnapshot ∧ s.node.term ≤ m.term ∧
    m.snapshotOld ≠ 0 ∧ s.node.baseIndex < m.snapshotIndex

instance (s : Server σ) (m : Message) : Decidable (s.Installs m) := by
  unfold Installs
  infer_instance

/-- A leader that takes the mutation has no mutation of the same client with a larger
RequestID in its log at an index above Applied. -/
def TakesInOrder (s : Server σ) (r : ClientRequest) : Prop :=
  commandOf r ≠ none → s.node.state = .leader →
    ∀ i ∈ indexes (s.node.applied + 1) s.node.lastIndex, ∀ e ∈ s.node.entryAt? i,
      e.kind = .normal → e.clientID = r.clientID → e.requestID ≤ r.requestID

instance (s : Server σ) (r : ClientRequest) : Decidable (s.TakesInOrder r) := by
  unfold TakesInOrder
  infer_instance

end Server

namespace Fleet

/-- The machine of server `n` has fewer than 2^32 keys and fewer than 2^32 clients. -/
def CountableAt (n : Nat) (f : Fleet σ) : Prop :=
  ∀ s ∈ (f.hosts n).server?, s.machine.Countable

instance (n : Nat) (f : Fleet σ) : Decidable (f.CountableAt n) := by
  unfold CountableAt
  infer_instance

/-- Server `n` takes over no snapshot of a peer, and no server takes over one from above its
Applied, which its machine would not follow. A leader takes the mutations of a client in the
order of their RequestIDs. -/
def InTurn (n : Nat) (f : Fleet σ) : Event → Prop
  | .deliver id m => ∀ s, f.hosts id = .up s → ¬ s.node.Overtakes m ∧ (id = n → ¬ s.Installs m)
  | .request id r => ∀ s, f.hosts id = .up s → s.TakesInOrder r
  | _ => True

instance (n : Nat) (f : Fleet σ) (ev : Event) : Decidable (f.InTurn n ev) :=
  match ev with
  | .deliver id m => inferInstanceAs (Decidable (∀ s, f.hosts id = .up s →
      ¬ s.node.Overtakes m ∧ (id = n → ¬ s.Installs m)))
  | .request id r => inferInstanceAs (Decidable (∀ s, f.hosts id = .up s → s.TakesInOrder r))
  | .refuse .. | .tick _ | .restart .. => isTrue trivial

/-- The condition on a step, in the state before it. -/
def Orderly (n : Nat) (f : Fleet σ) (ev : Event) : Prop := f.InTurn n ev ∧ f.CountableAt n

instance (n : Nat) (f : Fleet σ) (ev : Event) : Decidable (f.Orderly n ev) :=
  inferInstanceAs (Decidable (f.InTurn n ev ∧ f.CountableAt n))

/-- Every running server is caught up. -/
theorem act_caughtUp [OpenStore σ] {f f' : Fleet σ} {id : Nat} {ev : Host.Event}
    (hall : ∀ id s, f.hosts id = .up s → s.CaughtUp) (hact : f.act id ev = some f') :
    ∀ id s, f'.hosts id = .up s → s.CaughtUp := by
  obtain ⟨host, hnext, rfl⟩ := act_eq_some.mp hact
  intro id' s hup
  by_cases hid : id' = id
  · subst hid
    simp only [Function.update_self] at hup
    subst hup
    cases Host.passed_of_some hnext with
    | completed hup₀ hloop => exact (Server.round_of_ok hloop).caughtUp (hall id' _ hup₀).1
    | started _ _ _ hserver => exact Server.CaughtUp.start hserver
  · simp only [Function.update_of_ne hid] at hup
    exact hall id' s hup

theorem run_caughtUp [LawfulStore σ] {voters : Word} {f₀ f : Fleet σ} {events : List Event}
    (hinit : f₀.Initial voters) (hrun : Runs.run (step voters) f₀ events = some f) :
    ∀ id s, f.hosts id = .up s → s.CaughtUp := by
  refine Runs.run_invariant (p := fun _ _ => True)
    (I := fun f : Fleet σ => ∀ id s, f.hosts id = .up s → s.CaughtUp) ?_ ?_
    (Runs.always_of_forall (p := fun _ => True) fun _ _ => trivial) hrun
  · intro f ev f' hall _ hstep
    cases stepped_of_some hstep with
    | deliver _ _ hact => exact act_caughtUp hall hact
    | @request _ r _ hact =>
      exact act_caughtUp (f := { f with requests := f.requests ++ [r] }) hall hact
    | refuse => exact hall
    | tick hact => exact act_caughtUp hall hact
    | restart _ _ hact => exact act_caughtUp hall hact
  · intro id s hup
    rcases hinit.hosts id with habsent | ⟨config, store, s₁, hnew, _, _, _, hup₁⟩
    · rw [habsent] at hup
      cases hup
    · rw [hup₁] at hup
      cases hup
      obtain ⟨n, hn, rfl⟩ := Host.new_ok hnew
      refine ⟨Or.inr (Raft.local_new (fun _ _ => False.elim) hn), ?_⟩
      obtain ⟨_, _, rfl⟩ := Raft.newNodeWithStore_cases hn
      exact Nat.le_refl 0

section Reopening

variable [LawfulStore σ]

/-- Leaders append mutations in order. Every snapshot is the one of the log that it covers,
and those in the store of host `n` can be restored. -/
def reopenSetting (σ : Type) [LawfulStore σ] (voters : Word) (n : Nat) : Setting σ where
  voters := voters
  reconf := False
  orderly := False
  Image y st := st = (machineOf y).snapshot
  fresh := False
  started _ _ := none
  reliable := False
  reliable_store := Raft.store_of_never
  reliable_orderly := Raft.orderly_of_never
  fresh_fixed := Raft.fixed_of_never
  Own id y st := st = (machineOf y).snapshot ∧ (id = n → (machineOf y).Countable)
  Legal := InOrder

variable {voters : Word} {n id : Nat} {f f' : Fleet σ} {c : Raft.Cluster σ}
variable {h : History Nat Entry} {s : Server σ}

/-- The mutations that are committed are in order. -/
theorem committed_accepts (hs : Raft.Sane (reopenSetting σ voters n) h) {t : Nat} {y : List Entry}
    (hy : h.Committed t y) : Machine.new.Accepts (normal y) :=
  StateMachine.accepts_of_inOrder fun z e hpre =>
    (hs.log_allowed (hs.valid.committed_sound hy) z e hpre).2

/-- What a leader proposes may follow its log: what it has applied is below it because the
machine says so, and the rest because the request is taken in order. -/
theorem proposal_inOrder (hs : Raft.Sane (reopenSetting σ voters n) h)
    (hl : Raft.Live (reopenSetting σ voters n) id .full h s.node) (hr : s.Reflects h)
    (hlead : s.node.state = .leader) {r : ClientRequest} {operation : Raft.CommandOp}
    (hop : Server.commandOf r = some operation) (horder : s.TakesInOrder r)
    (hcached : s.machine.cached r.clientID r.requestID = .ok none) :
    InOrder (h.log id) (s.node.requestEntry operation r.clientID r.requestID r.key r.value) := by
  refine ⟨?_, fun e he hclient => ?_⟩
  · unfold Server.commandOf at hop
    split at hop
    · cases hop
      exact Or.inl rfl
    · cases hop
      exact Or.inr rfl
    · cases hop
  · obtain ⟨hmem, hkind⟩ := List.mem_filter.mp he
    replace hkind : e.kind = .normal := by simpa using hkind
    obtain ⟨k, hk⟩ := List.getElem?_of_mem hmem
    have hlt := (List.getElem?_eq_some_iff.mp hk).1
    have hlast := hl.logged.view.lastIndex
    obtain ⟨t, y, hy, hlen, hmachine, _⟩ := hr
    rcases Nat.lt_or_ge k s.node.applied with happlied | hflight
    · -- the entry is applied
      have hcommitted := hs.valid.commit_committed id
      rw [hl.logged.commit_eq] at hcommitted
      have hsome : y[k]? = some e := by
        refine hs.valid.committed_getElem hcommitted hy ?_ (by omega)
        rw [List.getElem?_take_of_lt (Nat.lt_of_lt_of_le happlied hl.logged.applied_le), hk]
      have hin : e ∈ normal y :=
        List.mem_filter.mpr ⟨List.mem_of_getElem? hsome, by simpa using hkind⟩
      obtain ⟨z, hz⟩ := List.append_of_mem (List.mem_of_getElem? hsome)
      obtain ⟨w, hw⟩ := hz
      have hmutates := ((hs.log_allowed (hs.valid.committed_sound hy) z e
        ⟨w, by rw [hw]; simp⟩).2 hkind).1
      rw [hmachine] at hcached
      exact StateMachine.Machine.cached_none hcached hin hmutates hclient
    · have hbase := hl.logged.base_le
      refine horder (by rw [hop]; exact Option.some_ne_none _) hlead (k + 1)
        (Raft.mem_indexes.mpr (by omega)) e ?_ hkind hclient
      rw [hl.logged.view.entryAt? (by omega) (by omega), Nat.add_sub_cancel, hk]
      rfl

/-- A step that keeps to the condition, and behind which the machine of server `n` can be
saved as well. -/
theorem reopen_safe {ev : Event} (hf : FleetSim (reopenSetting σ voters n) True f c h)
    (hturn : f.InTurn n ev) (hcountable : f'.CountableAt n)
    (hstep : f.step voters ev = some f') :
    FleetSim.Safe (reopenSetting σ voters n) True f h f' ev := by
  refine FleetSim.safe_of_step (K := reopenSetting σ voters n) hf (fun h => h) hstep ?_ ?_
    fun id s' y hs' hm => ?_
  · rintro id m s rfl hup
    refine ⟨?_, fun _ => (hturn s hup).1⟩
    exact {
      voters := False.elim, held := False.elim, single := False.elim, reach := False.elim
      own := fun hrunning htype hterm hold hlt y himage => ⟨himage, fun hid => by
        have hown : s.node.id = id := ((hf.good hup).down hf.sim.sane).own.1
        exact absurd ⟨hrunning, htype, hterm, hold, hlt⟩ ((hturn s hup).2 (hown.symm.trans hid))⟩ }
  · rintro id r s operation rfl hup hop hcached
    exact Or.inl fun hlead => proposal_inOrder hf.sim.sane ((hf.good hup).live hlead)
      (hf.machines _ s hup trivial) hlead hop (hturn s hup) hcached
  · have hst := congrArg Machine.snapshot (hm trivial)
    refine ⟨hst, hst, fun hid => ?_⟩
    subst hid
    exact hm trivial ▸ hcountable _ hs'

/-- The snapshot in the store of server `n` is there to be restored. -/
theorem restored_of_own {recovery : Recovery} (hsnap : recovery.snapshot = {} ∨
    Raft.OwnFact (reopenSetting σ voters n) h n recovery.snapshot) :
    ∃ machine, Server.Restored recovery machine := by
  rcases hsnap with hempty | ⟨y, _, _, _, hstate, hcount⟩
  · exact ⟨.new, by simp [Server.Restored, hempty]⟩
  · have hcount' : _ ∧ _ := hcount rfl
    refine ⟨if recovery.snapshot.lastIndex ≠ 0 ∧ recovery.snapshot.state ≠ [] then
      machineOf y else .new, ?_⟩
    unfold Server.Restored
    split
    · rw [hstate, Machine.restore_snapshot, if_pos hcount']
    · rfl

/-- The replay on the data directory of a server that runs: no error, and the machine that
the server has. -/
theorem reopens (hf : FleetSim (reopenSetting σ voters n) True f c h)
    (hup : f.hosts n = .up s) (hcaught : s.CaughtUp) (hrunning : s.node.storageErr = none)
    {config : Server.Config} (hid : config.id = n)
    (hv : initialVoters n config.peerIDs = .ok voters) {store : σ} {recovery : Recovery}
    (hopen : OpenStore.reopen s.node.store = some (store, recovery)) :
    ∃ s', Server.openServer config store recovery = .ok (s', none) ∧
      s'.node.applied = s.node.applied ∧ s'.machine = s.machine := by
  subst hid
  have hs := hf.sim.sane
  have hlocal : Local {} s.node := hcaught.1.resolve_left fun hstopped => hstopped.error hrunning
  have hlive := (hf.good hup).resolve_right fun hdead => by
    have hfaulted := hdead.stopped
    rw [hlocal.running] at hfaulted
    cases hfaulted
  -- the rebuilt node is at the same point of the same history
  obtain ⟨n₁, hrec⟩ := Raft.recover_total hv config.timeout store recovery
  obtain ⟨hgood₁, hrun₁⟩ := Raft.recover_good_settled hs ((hf.good hup).down hs)
    hv hlive.synced.2.2 False.elim hopen hrec
  have hrunning₁ : n₁.faulted = false := hrun₁ False.elim
  have hlive₁ := hgood₁.resolve_right fun hdead => by
    rw [hdead.stopped] at hrunning₁
    cases hrunning₁
  have happlied₁ := hlive₁.logged.applied_le
  have hcommit : n₁.commit = s.node.applied := by
    have hle := hlive.logged.applied_le
    have hge := hcaught.2
    rw [← hlive₁.logged.commit_eq, hlive.logged.commit_eq]
    omega
  have hsnap : recovery.snapshot = {} ∨
      Raft.OwnFact (reopenSetting σ voters config.id) h config.id recovery.snapshot := by
    have : Inhabited σ := ⟨s.node.store⟩
    have hdur := hlive₁.dur.snapshot
    rw [Raft.recover_store hrec] at hdur
    rw [(LawfulStore.reopen_settles s.node.store store recovery hopen).2]
    exact hdur
  -- applying returns
  obtain ⟨out, n', happly⟩ := Server.applyEntries_iff.mpr fun i hi => by
    have hin := Raft.mem_indexes.mp hi
    have hbase := hlive₁.logged.base_le
    have hle := hs.valid.commit_le config.id
    rw [hlive₁.logged.commit_eq] at hle
    exact hlive₁.logged.view.entryAt_ok (by omega) (by omega)
  obtain ⟨rfl, rfl⟩ := Raft.applyEntries_ok happly
  rcases Server.replay_eq recovery (s := { config := config, node := n₁ }) rfl with
    ⟨hno, _⟩ | ⟨machine, hr, hreplay⟩
  · obtain ⟨machine, hr⟩ := restored_of_own hsnap
    exact absurd hr (hno machine)
  · have hr₁ : ({ config := config, node := n₁, machine := machine } : Server σ).Reflects h :=
      Server.Restored.reflects (K := reopenSetting σ voters config.id) config
        (fun _ _ hown => hown.1) hsnap
        (Raft.recover_applied hrec hrunning₁) hr
    -- what is replayed is what the running server has applied behind the snapshot
    obtain ⟨t, y, hy, hlen, hmachine, _⟩ := hr₁
    obtain rfl : machine = machineOf y := hmachine
    obtain ⟨z, hz, hzlen, hnormal⟩ := (hgood₁.down hs).unapplied hs hy hlen
    have hlast := (hf.machines config.id s hup trivial).eq hs hz (hzlen.trans hcommit)
    obtain ⟨s', err, hserver, hnode, herr, hmachine'⟩ := Server.openServer_replays hrec hreplay happly
    obtain rfl : err = none := by
      refine herr.mpr ?_
      have hboth := committed_accepts hs hz
      unfold normal at hboth
      rw [List.filter_append, Machine.accepts_append] at hboth
      rw [hnormal]
      exact hboth.2
    refine ⟨s', hserver, ?_, ?_⟩
    · rw [hnode]
      show max n₁.applied n₁.commit = _
      omega
    · rw [hmachine' rfl, hlast, machineOf_append, hnormal]

/-- A restart on the data directory of a server that is still running reports no error, and
its machine is the one of the server at the same Applied index, in every state of a run
whose steps keep to the following, in the state before each of them. The server takes over
no snapshot of a peer. No server takes over a snapshot from above its Applied. A leader
takes a mutation only if its log has no mutation of the same client with a larger RequestID
at an index above Applied. And the server's machine has fewer than 2^32 keys and fewer than
2^32 clients. -/
theorem restart_accepts_live {f₀ : Fleet σ} {events : List Event} (hinit : f₀.Initial voters)
    (horderly : Runs.Always (step voters) (Orderly n) f₀ events)
    (hrun : Runs.run (step voters) f₀ events = some f) (hup : f.hosts n = .up s)
    (hcountable : s.machine.Countable) (hrunning : s.node.storageErr = none)
    {config : Server.Config} (hid : config.id = n)
    (hv : initialVoters n config.peerIDs = .ok voters) {store : σ} {recovery : Recovery}
    (hopen : OpenStore.reopen s.node.store = some (store, recovery)) :
    ∃ s', Server.openServer config store recovery = .ok (s', none) ∧
      s'.node.applied = s.node.applied ∧ s'.machine = s.machine := by
  have hlast : f.CountableAt n := by
    rw [CountableAt, hup]
    rintro _ ⟨⟩
    exact hcountable
  have hnext := horderly.next (q := CountableAt n) (fun _ _ hp => hp.2) hrun hlast
  obtain ⟨c₀, hf₀⟩ := Initial.sim (K := reopenSetting σ voters n) True hinit fun _ _ => rfl
  obtain ⟨c, h, hf, _, _⟩ := hf₀.run_all (K := reopenSetting σ voters n)
    (fun hrec => hrec) (fun _ _ _ _ hown => hown.1)
    (fun f c h ev f' hf hp hstep => reopen_safe hf hp.1.1 (hp.2 f' hstep) hstep)
    (horderly.and hnext) hrun
  exact reopens hf hup (run_caughtUp hinit hrun n s hup) hrunning hid hv hopen

end Reopening

/-- The first server of `committedRun` has compacted its log, and opens from the snapshot. -/
theorem restart_accepts_live_committedRun : ∃ (f : Fleet Disk) (s s' : Server Disk) (store : Disk)
    (recovery : Recovery), Runs.run (step 7) threeServers committedRun = some f ∧
    f.hosts 1 = .up s ∧ OpenStore.reopen s.node.store = some (store, recovery) ∧
    recovery.snapshot.lastIndex = 2 ∧
    Server.openServer { id := 1, peers := [1, 2, 3] } store recovery = .ok (s', none) ∧
    s'.node.applied = 2 ∧ s'.machine = s.machine := by
  obtain ⟨f, hrun, s, hup, happlied, herr, hcountable, hindex⟩ :=
    Runs.run_check (step 7) threeServers committedRun
      (fun f => ∃ s, f.hosts 1 = .up s ∧ (s.node.applied = 2 ∧ s.node.storageErr = none ∧
        s.machine.Countable ∧
        (OpenStore.reopen s.node.store).map (·.2.snapshot.lastIndex) = some 2)) (by decide +kernel)
  obtain ⟨⟨store, recovery⟩, hopen, hlast⟩ := Option.map_eq_some_iff.mp hindex
  have hid : ({ id := 1, peers := [1, 2, 3] } : Server.Config).id = 1 := rfl
  obtain ⟨s', hserver, happlied', hmachine⟩ := restart_accepts_live threeServers_initial
    (by decide +kernel) hrun hup hcountable herr hid rfl hopen
  exact ⟨f, s, s', store, recovery, hrun, hup, hopen, hlast, hserver, happlied'.trans happlied,
    hmachine⟩

/-! ## Two requests of one client on the way -/

/-- Three servers that never compact. The first starts an election with its first tick. -/
def plainServers : Fleet Disk :=
  start [{ id := 1, peers := [1, 2, 3], electionTicks := 1 }, { id := 2, peers := [1, 2, 3] },
    { id := 3, peers := [1, 2, 3] }] {}

/-- The first server is elected by the second. It takes request 2 of client 1 and then
request 1, and the second server acknowledges both. -/
def crossedRun : List Event := schedule 7 plainServers
  [.tick 1, .deliver 0, .deliver 2, .deliver 3, .deliver 5, .deliver 6, .deliver 8, .deliver 9,
    .deliver 10, .request 1 ⟨.put, 1, 2, 5, 6⟩, .request 1 ⟨.put, 1, 1, 7, 8⟩, .deliver 13,
    .deliver 17, .deliver 18, .deliver 21]

/-- The error that a restart on the data directory of a server reports. -/
def restartError [OpenStore σ] (config : Server.Config) (s : Server σ) :
    Option Server.OpenError := do
  let (store, recovery) ← OpenStore.reopen s.node.store
  let (_, err) ← (Server.openServer config store recovery).toOption
  err

/-- No snapshot was ever sent, the first server has applied both requests and runs on, and its
data directory does not open. -/
theorem crossed_requests_do_not_reopen : plainServers.Initial 7 ∧ ∃ f s,
    Runs.run (step 7) plainServers crossedRun = some f ∧
    (∀ m ∈ f.net, m.type ≠ .installSnapshot) ∧ f.hosts 1 = .up s ∧ s.node.storageErr = none ∧
    s.node.applied = 3 ∧
    restartError { id := 1, peers := [1, 2, 3] } s = some (.apply .staleRequest) := by
  refine ⟨start_initial rfl fun config hconfig => ?_, ?_⟩
  · fin_cases hconfig <;> rfl
  · obtain ⟨f, hrun, hnet, s, hup, herr, happlied, hstale⟩ :=
      Runs.run_check (step 7) plainServers crossedRun
        (fun f => (∀ m ∈ f.net, m.type ≠ .installSnapshot) ∧ ∃ s, f.hosts 1 = .up s ∧
          (s.node.storageErr = none ∧ s.node.applied = 3 ∧
            restartError { id := 1, peers := [1, 2, 3] } s = some (.apply .staleRequest)))
        (by decide +kernel)
    exact ⟨f, s, hrun, hnet, hup, herr, happlied, hstale⟩

end Fleet

end Promtact
