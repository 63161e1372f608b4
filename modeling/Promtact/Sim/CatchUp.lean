import Promtact.Raft.Steady
import Promtact.Runs
import Promtact.Sim.Simulator
import Promtact.Storage.RaftStore

/-!
# Snapshot catch-up of simulated machines

The store of the simulated machines is a second implementation of what `raftstore`
does: it saves every snapshot and cuts the log with `raftwal.CompactLog` alone. That
works as long as the log holds the snapshot's last entry. Where `raftstore` starts an
empty log behind the snapshot, this store fails, and the node stops.

The result is about every schedule over machines: as long as no node takes over a
snapshot from beyond its log, all of them keep running, each store holds the log of its
node, and a restart gives the node that was there. In `laggingSchedule` a follower is
behind the base of its leader and stops when it takes over the snapshot.
-/

namespace Promtact.Sim

open Function (update)
open Promtact.Raft (Node Op Output Message Snapshot Durable Ledger Recorder StoreCall Link Setting
  Proc Word Entry)
open Promtact.Storage.RaftStore (LogHolds logOf)

/-! ## Schedules -/

/-- The machines, and every message that one of them has handed out. -/
structure World where
  machines : Machines
  sent : List Message := []

/-- What happens next: an operation of a node, or a restart. -/
inductive Action
  | op (id : Nat) (op : Op)
  | restart (id : Nat)
  deriving DecidableEq

namespace World

/-- A message goes to the node it names, any number of times, in any order, or never. -/
def Deliverable (w : World) (id : Nat) : Op → Prop
  | .step m => m ∈ w.sent ∧ m.toID = id
  | _ => True

instance (w : World) (id : Nat) : (op : Op) → Decidable (w.Deliverable id op)
  | .step m => inferInstanceAs (Decidable (m ∈ w.sent ∧ m.toID = id))
  | .tick | .propose _ | .proposeRequest .. | .proposeJoint _ | .proposeFinal
  | .transferLeadership _ | .startReadIndex _ | .applyEntries | .compact .. | .drain =>
    .isTrue trivial

def step (timeout : Nat → Nat) (w : World) : Action → Option World
  | .op id op =>
    if w.Deliverable id op then do
      let (output, machines) ← w.machines.onNode id op.exec
      return {
        machines := machines
        sent := match output with
          | .messages messages => w.sent ++ messages
          | _ => w.sent }
    else none
  | .restart id => do
    let (_, machines) ← w.machines.restart timeout id
    return { w with machines := machines }

/-! ## What a step has to keep to -/

/-- Membership is proposed over existing nodes. -/
def Known (ids : List Nat) : Action → Prop
  | .op _ (.proposeJoint voters) => ∀ id ∈ voters, id ∈ ids
  | _ => True

/-- The store calls of the step have arguments that are values of their Go types. -/
def InRange (w : World) : Action → Prop
  | .op id op => ∀ n ∈ w.machines.nodes id, ∀ call ∈ n.callsOf op, call.1.InRange
  | .restart _ => True

/-- A snapshot that a node takes over ends in an entry that the node holds; if its last index
is below Commit, it carries the voters that the node has. And where a node compacts at
`index`, no joint or final configuration stands at an index in `(index, Commit]`, which is
the part of the committed log that the compaction keeps. -/
def KeepsUp (w : World) : Action → Prop
  | .op id (.step m) => ∀ n ∈ w.machines.nodes id, n.HoldsBase m ∧ n.KeepsVoters m
  | .op id (.compact index _) => ∀ n ∈ w.machines.nodes id, n.baseIndex < index →
      index ≤ n.applied → n.plainBehind index = true
  | _ => True

/-- What a step has to keep to. -/
def Orderly (ids : List Nat) (w : World) (a : Action) : Prop :=
  Known ids a ∧ w.InRange a ∧ w.KeepsUp a

instance (ids : List Nat) (a : Action) : Decidable (Known ids a) := by
  unfold Known
  split <;> infer_instance

instance (w : World) (a : Action) : Decidable (w.InRange a) := by
  unfold InRange
  split <;> infer_instance

instance (w : World) (a : Action) : Decidable (w.KeepsUp a) := by
  unfold KeepsUp
  split <;> infer_instance

instance (ids : List Nat) (w : World) (a : Action) : Decidable (w.Orderly ids a) :=
  inferInstanceAs (Decidable (_ ∧ _ ∧ _))

/-- A move of a schedule. What a node sends goes out at once, and a delivery names the
position of the message. -/
inductive Move
  | act (id : Nat) (op : Op)
  | deliver (position : Nat)

def Move.actions (w : World) : Move → List Action
  | act id op => [.op id op, .op id .drain]
  | deliver position =>
    match w.sent[position]? with
    | some m => [.op m.toID (.step m), .op m.toID .drain]
    | none => []

/-- The actions of a schedule from a state on. -/
def schedule (timeout : Nat → Nat) : World → List Move → List Action
  | _, [] => []
  | w, move :: moves =>
    move.actions w ++
      match Runs.run (step timeout) w (move.actions w) with
      | some w' => schedule timeout w' moves
      | none => []

end World

/-! ## The store -/

instance : Inhabited StableStore := ⟨StableStore.fresh⟩

namespace StableStore

/-- The log on the device and the snapshot in memory stand for the durable contents. -/
structure Holds (s : StableStore) (d : Durable) : Prop extends LogHolds s.wal d where
  snapshot_eq : s.snapshot = d.snapshot
  head : d.base = 0 → d.data.head? = some {}

theorem fresh_holds : Holds fresh {} where
  toLogHolds := Storage.RaftStore.fresh_logHolds
  snapshot_eq := rfl
  head _ := rfl

variable {s : StableStore} {d : Durable}

/-- The store holds what the ledger has. -/
def Stands (s : StableStore) (l : Ledger true) : Prop := Holds s l.content

/-- The snapshot is saved and the log is not cut yet. -/
def Saved (snapshot : Snapshot) (s : StableStore) (l : Ledger true) : Prop :=
  Holds s l.content ∧ l.content.snapshot = snapshot

/-- An operation of the log that the ledger does is done. -/
theorem Holds.call (op : Storage.RaftWal.Op) {refuse : Durable → Bool}
    {effect : Durable → Durable} (hs : Holds s d) (hop : op.InRange) (hplan : Storage.RaftStore.Planned op refuse effect d)
    (hok : (Ledger.call refuse effect (⟨d⟩ : Ledger true)).1 = none) :
    refuse d = false ∧ (Ledger.call refuse effect (⟨d⟩ : Ledger true)).2 = ⟨effect d⟩ ∧
      ∃ wal, StableStore.call op s = (none, { s with wal := wal }) ∧ LogHolds wal (effect d) := by
  unfold Ledger.call at hok ⊢
  unfold StableStore.call
  rcases hs.exec hop hplan with ⟨hrefuse, _⟩ | ⟨haccept, wal, hexec, hw⟩
  · rw [if_pos hrefuse] at hok
    cases hok
  · rw [hexec, if_neg (by simp [haccept])]
    exact ⟨haccept, rfl, wal, rfl, hw⟩

theorem Holds.saveHardState {hard : Raft.HardState} (hs : Holds s d)
    (hin : (StoreCall.saveHardState hard).InRange)
    (hok : (Raft.StableStore.saveHardState hard (⟨d⟩ : Ledger true)).1 = none) :
    (Raft.StableStore.saveHardState hard s).1 = none ∧
      Stands (Raft.StableStore.saveHardState hard s).2
        (Raft.StableStore.saveHardState hard (⟨d⟩ : Ledger true)).2 := by
  obtain ⟨_, hledger, wal, hcall, hw⟩ := hs.call (.saveHardState hard) hin
    (Storage.RaftStore.planned_saveHardState hs.toLogHolds hard) hok
  show (StableStore.call _ s).1 = none ∧ Stands (StableStore.call _ s).2 (Ledger.call _ _ ⟨d⟩).2
  rw [hcall, hledger]
  exact ⟨rfl, { toLogHolds := hw, snapshot_eq := hs.snapshot_eq, head := hs.head }⟩

theorem Holds.append {index : Nat} {entry : Entry} (hs : Holds s d)
    (hin : (StoreCall.append index entry).InRange)
    (hok : (Raft.StableStore.append index entry (⟨d⟩ : Ledger true)).1 = none) :
    (Raft.StableStore.append index entry s).1 = none ∧
      Stands (Raft.StableStore.append index entry s).2
        (Raft.StableStore.append index entry (⟨d⟩ : Ledger true)).2 := by
  obtain ⟨haccept, hledger, wal, hcall, hw⟩ := hs.call (.append index entry) hin
    (Storage.RaftStore.planned_append hs.toLogHolds index entry) hok
  show (StableStore.call _ s).1 = none ∧ Stands (StableStore.call _ s).2 (Ledger.call _ _ ⟨d⟩).2
  rw [hcall, hledger]
  refine ⟨rfl, { toLogHolds := hw, snapshot_eq := hs.snapshot_eq, head := fun hzero => ?_ }⟩
  -- the entry goes behind the base
  replace hzero : d.base = 0 := hzero
  have hpos : 0 < index := by
    simp only [Ledger.refusesAppend, Bool.or_eq_false_iff, decide_eq_false_iff_not] at haccept
    omega
  have hhead := hs.head hzero
  show (d.data.take (index - d.base) ++ [entry]).head? = some {}
  rw [hzero, List.head?_append_of_ne_nil]
  · rw [List.head?_take, if_neg (by omega), hhead]
  · intro hnil
    rw [List.take_eq_nil_iff] at hnil
    rcases hnil with hnil | hnil
    · omega
    · rw [hnil] at hhead
      cases hhead

/-- A log that holds the last entry of the snapshot is cut there. -/
theorem Holds.compactLog (hs : Holds s d)
    (hin : (StoreCall.compactLog d.snapshot.lastIndex).InRange)
    (hok : (Ledger.call (Ledger.refusesCompaction true d.snapshot.lastIndex) Durable.fence
      (⟨d⟩ : Ledger true)).1 = none) :
    (StableStore.call (.compactLog d.snapshot.lastIndex) s).1 = none ∧
      Stands (StableStore.call (.compactLog d.snapshot.lastIndex) s).2
        (Ledger.call (Ledger.refusesCompaction true d.snapshot.lastIndex) Durable.fence
          (⟨d⟩ : Ledger true)).2 := by
  have hstrict : Ledger.refusesCompaction true d.snapshot.lastIndex d = false := by
    rw [← Bool.not_eq_true]
    intro hrefuse
    unfold Ledger.call at hok
    rw [if_pos hrefuse] at hok
    cases hok
  obtain ⟨hloose, hheld⟩ : Ledger.refusesCompaction false d.snapshot.lastIndex d = false ∧
      d.term d.snapshot.lastIndex = some d.snapshot.lastTerm := by
    simpa [Ledger.refusesCompaction] using hstrict
  have hsame : Ledger.call (Ledger.refusesCompaction true d.snapshot.lastIndex) Durable.fence
      (⟨d⟩ : Ledger true) =
        Ledger.call (Ledger.refusesCompaction false d.snapshot.lastIndex) Durable.fence ⟨d⟩ := by
    unfold Ledger.call
    rw [hstrict, hloose]
  rw [hsame] at hok ⊢
  obtain ⟨_, hledger, wal, hcall, hw⟩ := hs.call (.compactLog d.snapshot.lastIndex) hin
    (Storage.RaftStore.planned_compactLog hs.toLogHolds hheld) hok
  rw [hcall, hledger]
  refine ⟨rfl, { toLogHolds := hw, snapshot_eq := hs.snapshot_eq, head := fun hzero => ?_ }⟩
  -- a cut moves the base up
  have hbase : d.snapshot.lastIndex = 0 := hzero
  rw [hbase] at hheld hloose
  simp [Ledger.refusesCompaction, hheld, hbase] at hloose
  omega

/-- As long as the calls are in range, the store does what a strict ledger does. What a
strict ledger refuses, the store may do or refuse. -/
def link : Link (Recorder StableStore) (Ledger true) where
  toBond := Recorder.looseBond Stands Saved
  saveHardState _ _ _ h := Recorder.answers_loose (R := Stands) h.1 (Holds.saveHardState h.2)
  append _ _ _ _ h := Recorder.answers_loose (R := Stands) h.1 (Holds.append h.2)
  snapshots := by
    refine ⟨fun snapshot r l h => Recorder.answers_loose (R := Saved snapshot) h.1 fun _ hok => ?_,
      fun snapshot r l h => Recorder.answers_loose (R := Stands) h.1 fun hin hok => ?_,
      fun _ => Recorder.lost_record, fun _ => Recorder.lost_record⟩
    · have haccept : Ledger.call (snapshot.lastIndex < ·.snapshot.lastIndex)
          (·.saveSnapshot snapshot) l = (none, ⟨l.content.saveSnapshot snapshot⟩) := by
        change (Ledger.call _ _ l).1 = none at hok
        unfold Ledger.call at hok ⊢
        split at hok
        · cases hok
        · next hno => rw [if_neg hno]
      refine ⟨rfl, ?_⟩
      show Saved snapshot { r.store with snapshot := snapshot } (Ledger.call _ _ l).2
      rw [haccept]
      exact ⟨{ toLogHolds := { h.2.toLogHolds with }, snapshot_eq := rfl, head := h.2.head }, rfl⟩
    · obtain ⟨_, hs, rfl⟩ := h
      exact hs.compactLog hin hok
  lost_saveHardState _ := Recorder.lost_record
  lost_append _ _ := Recorder.lost_record

end StableStore

/-! ## Nodes over a ledger -/

/-- Changing voters among the nodes that exist, and stores that only fail on a snapshot
from beyond their log. -/
def setting (voters : Word) : Setting (Ledger true) where
  voters := voters
  reconf := True
  orderly := True
  Image _ _ := True
  fresh := False
  started _ _ := none
  reliable := True
  snug := true = true
  reliable_store _ := Ledger.reliable
  reliable_orderly _ _ := trivial
  fresh_fixed := Raft.fixed_of_never
  closed := True
  tidy := True
  tidy_orderly _ := ⟨trivial, trivial⟩

/-- A node over the ledger that does what the node of the machine does. -/
structure Mirrors (n : Node StableStore) (t : Node (Ledger true)) : Prop where
  same : t = n.over t.store t.storageErr
  holds : StableStore.Holds n.store t.store.content

def ProcMirrors : Option (Node StableStore) → Proc (Ledger true) → Prop
  | none, p => p = .absent
  | some n, p => ∃ t, p = .up t ∧ Mirrors n t

/-- The machines do what a cluster over ledgers does, and that cluster has a history. -/
structure Inv (voters : Word) (w : World) (c : Raft.Cluster (Ledger true))
    (h : QuorumLog.History Nat Entry) : Prop where
  sim : Raft.Sim (setting voters) c h
  nodes : ∀ id, ProcMirrors (w.machines.nodes id) (c.procs id)
  net : c.net = w.sent
  attached : ∀ id, w.machines.detached id = none

variable {voters : Word} {w w' : World} {c : Raft.Cluster (Ledger true)}
variable {h : QuorumLog.History Nat Entry} {n n' : Node StableStore} {t : Node (Ledger true)}
variable {ids : List Nat} {timeout : Nat → Nat} {id : Nat}

theorem Inv.mirror (hinv : Inv voters w c h) (hn : w.machines.nodes id = some n) :
    ∃ t, c.procs id = .up t ∧ Mirrors n t ∧ Raft.Good (setting voters) id h t := by
  have hm := hinv.nodes id
  rw [hn] at hm
  obtain ⟨t, hup, hmirrors⟩ := hm
  have hgood := hinv.sim.procs id
  rw [hup] at hgood
  exact ⟨t, hup, hmirrors, hgood⟩

theorem ProcMirrors.update {nodes : Nat → Option (Node StableStore)}
    {procs : Nat → Proc (Ledger true)} (hall : ∀ id, ProcMirrors (nodes id) (procs id))
    (hm : Mirrors n t) (id' : Nat) :
    ProcMirrors (update nodes id (some n) id') (update procs id (.up t) id') := by
  by_cases hid : id' = id
  · subst hid
    simpa [ProcMirrors] using hm
  · simpa [hid] using hall id'

/-! ## One step -/

/-- An operation over the machine's store is the same operation over the ledger, unless a
call was out of range or the ledger stopped the node. -/
theorem Mirrors.exec (hm : Mirrors n t) {op : Op} {out : Output} (hexec : op.exec n = .ok out n')
    (hrange : ∀ call ∈ n.callsOf op, call.1.InRange)
    (hrun : (Raft.finalState (op.exec t)).faulted = false) :
    ∃ t', op.exec t = .ok out t' ∧ Mirrors n' t' := by
  obtain ⟨err, hrec⟩ := Raft.exec_recorded hexec
  have halike : StableStore.link.Alike (n.over ({ store := n.store } : Recorder StableStore)
      n.storageErr) t := ⟨⟨by simp [Recorder.InRange], hm.holds⟩, hm.same⟩
  have hends := (Raft.linked_exec (L := StableStore.link) op).ends _ t halike
  have hgone : ¬ StableStore.link.Gone (n'.over ⟨n'.store, n.callsOf op⟩ err)
      (Raft.finalState (op.exec t)) := by
    rintro (hlost | ⟨_, hf⟩)
    · exact hlost hrange
    · rw [hrun] at hf
      cases hf
  rw [hrec] at hends
  cases ht : op.exec t with
  | ok out' t' =>
    rw [ht] at hends hgone
    obtain ⟨rfl, hst⟩ := hends.resolve_right hgone
    exact ⟨t', rfl, hst.2, hst.1.2⟩
  | error e t' =>
    rw [ht] at hends hgone
    exact absurd hends hgone

/-- What the ledger's cluster needs to know of an operation. -/
theorem Inv.eventSafe (hinv : Inv voters w c h) (hclosed : ∀ id ∈ ids, Raft.Member voters id)
    {op : Op} (hknown : World.Known ids (.op id op)) (hup : w.KeepsUp (.op id op)) :
    Raft.EventSafe (setting voters) c h (.op id op) := by
  -- the conditions only read what both nodes have in common
  have hnode : ∀ t, c.procs id = .up t → ∃ n, w.machines.nodes id = some n ∧ Mirrors n t := by
    intro t ht
    have hm := hinv.nodes id
    rw [ht] at hm
    cases hn : w.machines.nodes id with
    | none => rw [hn] at hm; cases hm
    | some n =>
      rw [hn] at hm
      obtain ⟨t', ⟨⟩, hm⟩ := hm
      exact ⟨n, rfl, hm⟩
  cases op with
  | step m =>
    intro t ht
    obtain ⟨n, hn, hm⟩ := hnode t ht
    obtain ⟨hheld, hkeeps⟩ := hup n hn
    rw [hm.same]
    exact ⟨fun _ => hkeeps, fun _ => hheld, False.elim, False.elim, fun _ _ _ _ _ _ _ => trivial⟩
  | proposeJoint newVoters => exact ⟨trivial, fun _ id hid => hclosed id (hknown id hid)⟩
  | transferLeadership target => exact False.elim
  | startReadIndex context => exact False.elim
  | compact index state =>
    intro t ht hlo hhi
    obtain ⟨n, hn, hm⟩ := hnode t ht
    rw [hm.same] at hlo hhi ⊢
    exact ⟨fun _ _ _ => trivial, fun _ _ _ => trivial, fun _ => ⟨trivial, hup n hn hlo hhi⟩⟩
  | propose command => exact fun _ _ _ => trivial
  | proposeRequest operation clientID requestID key value => exact fun _ _ _ => trivial
  | _ => trivial

theorem Inv.op (hinv : Inv voters w c h) (hclosed : ∀ id ∈ ids, Raft.Member voters id) {op : Op}
    (hknown : World.Known ids (.op id op)) (hup : w.KeepsUp (.op id op))
    (hrange : w.InRange (.op id op)) (hstep : w.step timeout (.op id op) = some w') :
    ∃ c' h', Inv voters w' c' h' := by
  simp only [World.step] at hstep
  by_cases hdel : w.Deliverable id op
  · rw [if_pos hdel] at hstep
    obtain ⟨⟨out, machines⟩, hon, hw'⟩ := Option.bind_eq_some_iff.mp hstep
    obtain ⟨n, hn, hon⟩ := Option.bind_eq_some_iff.mp hon
    obtain ⟨t, ht, hm, hgood⟩ := hinv.mirror hn
    have hdel' : c.Deliverable id op := by
      cases op with
      | step m => exact ⟨by rw [hinv.net]; exact hdel.1, hdel.2⟩
      | _ => trivial
    obtain ⟨h', hsim, hgrows⟩ :=
      hinv.sim.execOp ht (hinv.sim.opSafe ht hdel' (hinv.eventSafe hclosed hknown hup))
    have hrun : (Raft.finalState (op.exec t)).faulted = false := by
      have hproc := hsim.procs id
      unfold Raft.Cluster.execOp at hproc
      cases hexec : op.exec t with
      | ok out' t' =>
        rw [hexec] at hproc
        simp only [Function.update_self] at hproc
        exact (Raft.Good.running hproc trivial).running
      | error e t' =>
        rw [hexec] at hproc
        simp only [Function.update_self] at hproc
        exact Raft.Down.running hproc trivial
    cases hexec : op.exec n with
    | error e n' => rw [hexec] at hon; cases hon
    | ok out' n' =>
      rw [hexec] at hon
      cases hon
      cases hw'
      obtain ⟨t', ht', hm'⟩ := hm.exec hexec (hrange n hn) hrun
      refine ⟨_, h', hsim, fun id' => ?_, ?_, hinv.attached⟩
      · unfold Raft.Cluster.execOp
        rw [ht']
        exact ProcMirrors.update hinv.nodes hm' id'
      · unfold Raft.Cluster.execOp
        rw [ht']
        cases out <;> simp only [hinv.net]
  · rw [if_neg hdel] at hstep
    cases hstep

/-- A machine is rebuilt from the contents of its store. -/
theorem restart_eq (timeout : Nat → Nat) {m : Machines} {d : Durable} (hn : m.nodes id = some n)
    (hattached : m.detached id = none) (hs : StableStore.Holds n.store d)
    (hsettled : d.base = d.snapshot.lastIndex) :
    ∃ store, StableStore.Holds store d ∧ m.restart timeout id =
      (Raft.recover id n.peers (timeout id) store d.recovery).toOption.map fun n' =>
        (none, { nodes := update m.nodes id (some n'), detached := update m.detached id none }) := by
  obtain ⟨wal, hopen, hw⟩ := hs.reopen
  obtain ⟨hbase, hhard, hdata, _⟩ := hw.log
  have hcrash : n.store.wal.log.device.crash 0 =
      .ok { durable := n.store.wal.log.device.durable } := by
    rw [Storage.Wal.MemoryDevice.crash_eq (by omega) (by omega)]
    simp
  refine ⟨⟨wal, n.store.snapshot⟩, { hs with toLogHolds := hw }, ?_⟩
  have hstore : m.store id n = n.store := by
    unfold Machines.store
    rw [hattached]
    rfl
  unfold Machines.restart
  simp only [hn, hstore, hcrash, hopen, hbase, hhard, hdata, hs.snapshot_eq]
  unfold Raft.recover Durable.recovery
  by_cases hzero : d.base = 0
  · -- without a base the whole log is replayed, and its first entry is the empty one
    obtain ⟨e, data, hcons⟩ := List.exists_cons_of_ne_nil hs.nonempty
    have hhead := hs.head hzero
    rw [hcons] at hhead
    cases hhead
    rw [if_neg (by omega), if_neg (by simp only []; omega), hcons]
    rfl
  · rw [if_pos hzero, if_neg (by omega), if_pos (by simp only []; omega)]

theorem Inv.restart (hinv : Inv voters w c h) (timeout : Nat → Nat)
    (hn : w.machines.nodes id = some n) :
    ∃ m' n', w.machines.restart timeout id = some (none, m') ∧ m'.nodes id = some n' ∧
      n.Rebuilt n' ∧ ∃ c' h', Inv voters { w with machines := m' } c' h' := by
  obtain ⟨t, ht, hm, hgood⟩ := hinv.mirror hn
  have hl := hgood.running trivial
  have hsettled : t.store.content.base = t.store.content.snapshot.lastIndex := hl.synced.2.2
  have hv : Raft.initialVoters id n.peers = .ok voters := by
    have := hl.named.closed trivial
    rwa [hm.same] at this
  obtain ⟨t', hrec, hrebuilt⟩ := hgood.rebuilds hinv.sim.sane trivial (timeout id) hv
    fun _ _ => hl.single trivial trivial
  obtain ⟨store, hstore, hrestart⟩ := restart_eq timeout hn (hinv.attached id) hm.holds hsettled
  obtain ⟨err, hrec'⟩ := Raft.recover_ok store hrec
  rw [show (Raft.recover id n.peers (timeout id) store t.store.content.recovery) = _ from hrec']
    at hrestart
  refine ⟨_, _, hrestart, Function.update_self .., ?_, ?_⟩
  · rw [hm.same] at hrebuilt
    exact { hrebuilt with }
  · obtain ⟨hopens, hsettle⟩ := Ledger.settled hsettled
    have hstep : c.step voters (.restart id n.peers (timeout id)) =
        some { c with procs := update c.procs id (.up t') } := by
      refine Raft.Cluster.step_restart.mpr ⟨t, t.store, t.store.content.recovery, t', by rw [ht]; rfl,
        by rw [hv]; rfl, ?_, hrec, rfl⟩
      show (if Ledger.refusesOpen t.store.content then none else _) = _
      rw [if_neg (by simp [hopens]), hsettle]
    have hsafe : Raft.EventSafe (setting voters) c h (.restart id n.peers (timeout id)) := by
      intro _ _ s hs
      rw [ht] at hs ⊢
      cases hs
      exact Or.inr (Or.inl ⟨trivial, rfl, hl.running⟩)
    obtain ⟨h', hsim, _⟩ := hinv.sim.step hsafe hstep
    refine ⟨_, h', hsim, ProcMirrors.update hinv.nodes ⟨rfl, ?_⟩, hinv.net, fun id' => ?_⟩
    · rw [Raft.recover_store hrec]
      exact hstore
    · by_cases hid : id' = id
      · simp [hid]
      · simpa [hid] using hinv.attached id'

theorem Inv.step (hinv : Inv voters w c h) (hclosed : ∀ id ∈ ids, Raft.Member voters id)
    {a : Action} (ha : w.Orderly ids a) (hstep : w.step timeout a = some w') :
    ∃ c' h', Inv voters w' c' h' := by
  obtain ⟨hknown, hrange, hup⟩ := ha
  cases a with
  | op id op => exact hinv.op hclosed hknown hup hrange hstep
  | restart id =>
    cases hn : w.machines.nodes id with
    | none =>
      have : w.machines.restart timeout id = some (some (.unknownNode id), w.machines) := by
        unfold Machines.restart
        rw [hn]
      simp only [World.step, this] at hstep
      cases hstep
      exact ⟨c, h, hinv⟩
    | some n =>
      obtain ⟨m', _, hrestart, _, _, hinv'⟩ := hinv.restart timeout hn
      simp only [World.step, hrestart] at hstep
      cases hstep
      exact hinv'

/-! ## New machines -/

/-- There is a new node for every ID that the loop has passed. -/
def Started (ids : List Nat) (timeout : Nat → Nat) (done : List Nat) (m : Machines) : Prop :=
  ∀ id, m.detached id = none ∧ if id ∈ done then
    ∃ n, Raft.newNodeWithStore id (ids.filter (· ≠ id)) (timeout id) StableStore.fresh = .ok n ∧
      m.nodes id = some n
  else m.nodes id = none

theorem started_of_start {m : Machines} (hstart : Machines.start ids timeout = some m) :
    Started ids timeout ids m := by
  have hloop : ∀ (rest done : List Nat) (m₀ : Machines), Started ids timeout done m₀ →
      rest.foldlM (fun (m : Machines) id => do
        let n ← (Raft.newNodeWithStore id (ids.filter (· ≠ id)) (timeout id)
          StableStore.fresh).toOption
        return { m with nodes := update m.nodes id (some n) }) m₀ = some m →
      Started ids timeout (done ++ rest) m := by
    intro rest
    induction rest with
    | nil =>
      rintro done m₀ h₀ ⟨⟩
      simpa using h₀
    | cons next rest ih =>
      intro done m₀ h₀ hfold
      rw [List.foldlM_cons] at hfold
      obtain ⟨m₁, hnext, hfold⟩ := Option.bind_eq_some_iff.mp hfold
      obtain ⟨n, hn, hnext⟩ := Option.bind_eq_some_iff.mp hnext
      cases hnext
      rw [← List.singleton_append, ← List.append_assoc]
      refine ih (done ++ [next]) { m₀ with nodes := update m₀.nodes next (some n) }
        (fun id => ⟨(h₀ id).1, ?_⟩) hfold
      by_cases hid : id = next
      · subst hid
        rw [if_pos (by simp)]
        exact ⟨n, Raft.Cluster.eq_ok_of_toOption hn, Function.update_self ..⟩
      · simpa [hid] using (h₀ id).2
  exact hloop ids [] ⟨fun _ => none, fun _ => none⟩ (fun id => ⟨rfl, by simp⟩) hstart

/-- The node and its peers are the voters. -/
theorem member_start (hid : id ∈ ids)
    (hv : Raft.initialVoters id (ids.filter (· ≠ id)) = .ok voters) (other : Nat) :
    Raft.Member voters other ↔ other ∈ ids := by
  rw [Raft.member_initialVoters hv, List.mem_filter]
  by_cases hown : other = id <;> simp [hown, hid]

theorem Started.inv {m : Machines} (hm : Started ids timeout ids m) :
    ∃ voters c h, (∀ id ∈ ids, Raft.Member voters id) ∧ Inv voters { machines := m } c h := by
  -- every node has the same voters
  obtain ⟨voters, hv⟩ : ∃ voters, ∀ id ∈ ids,
      Raft.initialVoters id (ids.filter (· ≠ id)) = .ok voters := by
    have hall : ∀ id ∈ ids, ∃ voters,
        Raft.initialVoters id (ids.filter (· ≠ id)) = .ok voters := by
      intro id hid
      obtain ⟨n, hnew, _⟩ := (if_pos hid ▸ (hm id).2 :)
      obtain ⟨voters, hv, _⟩ := Raft.bind_eq_ok.mp hnew
      exact ⟨voters, hv⟩
    cases hids : ids with
    | nil => exact ⟨0, by simp⟩
    | cons first rest =>
      rw [← hids]
      have hfirst : first ∈ ids := by simp [hids]
      obtain ⟨voters, hv⟩ := hall first hfirst
      refine ⟨voters, fun id hid => ?_⟩
      obtain ⟨own, hown⟩ := hall id hid
      rw [hown, Raft.eq_of_members fun other =>
        (member_start hid hown other).trans (member_start hfirst hv other).symm]
  refine ⟨voters, Raft.Cluster.start ids timeout {}, .empty, fun id hid =>
    (member_start hid (hv id hid) id).mpr hid, ?_⟩
  have hinit : (Raft.Cluster.start ids timeout ({} : Ledger true)).Initial voters :=
    Raft.Cluster.start_initial rfl fun id hid => by rw [hv id hid]; rfl
  refine ⟨hinit.sim fun _ _ => rfl, fun id => ?_, rfl, fun id => (hm id).1⟩
  have hnode := (hm id).2
  unfold Raft.Cluster.start
  by_cases hid : id ∈ ids
  · rw [if_pos hid] at hnode
    obtain ⟨n, hnew, hn⟩ := hnode
    rw [Raft.newNodeWithStore_eq (hv id hid)] at hnew
    cases hnew
    simp only [hn, if_pos hid, Raft.newNodeWithStore_eq (hv id hid)]
    exact ⟨_, rfl, rfl, StableStore.fresh_holds⟩
  · rw [if_neg hid] at hnode
    simp only [hnode, if_neg hid]
    rfl

/-! ## Runs -/

/-- In every schedule of operations, deliveries and restarts that keeps to the following, no
node stops, each store holds the log of its node, and a restart rebuilds the node. A
snapshot that a node takes over ends in an entry of its log, and carries the node's voters
if its last index is below Commit. A compaction at `index` finds no joint or final
configuration at an index in `(index, Commit]`. Voters are proposed among the machines, and
the arguments of the store calls are values of their Go types. -/
theorem machines_keep_up {m : Machines} {actions : List Action}
    (hstart : Machines.start ids timeout = some m)
    (horderly : Runs.Always (World.step timeout) (World.Orderly ids) { machines := m } actions)
    (hrun : Runs.run (World.step timeout) { machines := m } actions = some w) (id : Nat)
    (n : Node StableStore) (hn : w.machines.nodes id = some n) :
    n.faulted = false ∧ n.Stored n.store.wal.base n.store.wal.data ∧
      ∃ m' n', w.machines.restart timeout id = some (none, m') ∧ m'.nodes id = some n' ∧
        n.Rebuilt n' := by
  obtain ⟨voters, c₀, h₀, hclosed, hinv₀⟩ := (started_of_start hstart).inv
  obtain ⟨c, h, hinv⟩ : ∃ c h, Inv voters w c h :=
    Runs.run_invariant (I := fun w => ∃ c h, Inv voters w c h)
      (fun w a w' ⟨c, h, hinv⟩ ha hstep => hinv.step hclosed ha hstep) ⟨c₀, h₀, hinv₀⟩ horderly hrun
  obtain ⟨t, _, hm, hgood⟩ := hinv.mirror hn
  obtain ⟨m', n', hrestart, hn', hrebuilt, _⟩ := hinv.restart timeout hn
  have hl := hgood.running trivial
  obtain ⟨hbase, _, hdata, _⟩ := hm.holds.log
  refine ⟨?_, ?_, m', n', hrestart, hn', hrebuilt⟩
  · have hrunning := hl.running
    rwa [hm.same] at hrunning
  · have hstored := hl.stored
    rw [hbase, hdata]
    rw [hm.same] at hstored
    exact { hstored with }

/-! Node 1 is elected by node 2, and both commit its first entry. In the first schedule
node 3 has the entry too, but its acknowledgement is late, so that node 1 compacts and
sends its snapshot. In the second one node 3 has nothing when the snapshot arrives. -/

def newMachines : Machines := (Machines.start [1, 2, 3] electionTimeout).get (by decide)

theorem start_newMachines : Machines.start [1, 2, 3] electionTimeout = some newMachines :=
  (Option.some_get _).symm

def elected : List World.Move :=
  List.replicate 10 (.act 1 .tick) ++ [.deliver 0, .deliver 2, .deliver 3, .deliver 5, .deliver 6,
    .deliver 8, .deliver 9, .deliver 10]

def heldSchedule : List Action :=
  World.schedule electionTimeout { machines := newMachines } (elected ++ [.deliver 7, .deliver 13,
    .deliver 14, .act 1 .applyEntries, .act 1 (.compact 1 []), .act 1 .tick, .act 1 .tick,
    .act 1 .tick, .deliver 17])

theorem machines_keep_up_heldSchedule : ∃ (w : World) (n : Node StableStore),
    Runs.run (World.step electionTimeout) { machines := newMachines } heldSchedule = some w ∧
    w.machines.nodes 3 = some n ∧ n.baseIndex = 1 ∧ n.faulted = false ∧
    n.Stored n.store.wal.base n.store.wal.data ∧
    ∃ m' n', w.machines.restart electionTimeout 3 = some (none, m') ∧ m'.nodes 3 = some n' ∧
      n.Rebuilt n' := by
  obtain ⟨w, hrun, n, hn, hbase⟩ := Runs.run_check (World.step electionTimeout)
    { machines := newMachines } heldSchedule (fun w => ∃ n ∈ w.machines.nodes 3, n.baseIndex = 1)
    (by decide +kernel)
  exact ⟨w, n, hrun, hn, hbase, machines_keep_up start_newMachines (by decide +kernel) hrun 3 n hn⟩

def laggingSchedule : List Action :=
  World.schedule electionTimeout { machines := newMachines } (elected ++ [.act 1 .applyEntries,
    .act 1 (.compact 1 []), .deliver 7, .deliver 13, .deliver 14])

/-- A follower that is behind the base of its leader stops. -/
theorem lagging_follower_stops : ∃ (w : World) (n : Node StableStore),
    Machines.start [1, 2, 3] electionTimeout = some newMachines ∧
    Runs.Always (World.step electionTimeout)
      (fun w a => World.Known [1, 2, 3] a ∧ w.InRange a) { machines := newMachines } laggingSchedule ∧
    Runs.run (World.step electionTimeout) { machines := newMachines } laggingSchedule = some w ∧
    w.machines.nodes 3 = some n ∧ n.faulted = true := by
  obtain ⟨w, hrun, n, hn, hstop⟩ := Runs.run_check (World.step electionTimeout)
    { machines := newMachines } laggingSchedule
    (fun w => ∃ n ∈ w.machines.nodes 3, n.faulted = true) (by decide +kernel)
  exact ⟨w, n, start_newMachines, by decide +kernel, hrun, hn, hstop⟩

end Promtact.Sim
