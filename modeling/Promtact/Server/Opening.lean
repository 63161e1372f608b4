import Promtact.Raft.Restoring
import Promtact.Server.Replicas
import Promtact.Storage.RaftStore

/-!
# Opening a data directory

`Open` rebuilds the node and goes on to apply what it has committed. A node that refuses what
was recovered says so by its `Faulted` flag, and `Open` does not look at it. Where the commit
index is behind the log, applying panics; where the log does not fit the voters, a server
comes up over a node that will never do anything (`refused_log_opens`).

`open_reports_unusable` says exactly when `Open` returns and no server comes up over such a node:
what was recovered is `Usable`, or there is something else to report (`Reported`).
-/

namespace Promtact.Server

open GhostState (bind_of_ok)
open Raft (Node Word Entry Op Panic StableStore Recovery)
open Raft.Node (indexes)
open StateMachine (Machine normal)
open Storage (RaftStore.openStore)

variable {σ : Type} [StableStore σ] {s : Server σ} {config : Config} {recovery : Recovery}
variable {voters : Word}

/-! ## Applying -/

omit [StableStore σ] in
/-- Applying returns if every entry is there, and panics otherwise. -/
theorem applyEntries_iff {n : Node σ} : (∃ out n', Raft.applyEntries n = .ok out n') ↔
    ∀ i ∈ indexes (n.applied + 1) n.commit, ∃ e, n.entryAt i = .ok e := by
  have hloop : ∀ (l : List Nat) (dst : List Entry) (k : Nat),
      (∃ out n', l.foldlM Raft.applyNext dst { n with applied := k } = .ok out n') ↔
        ∀ i ∈ l, ∃ e, n.entryAt i = .ok e := by
    intro l
    induction l with
    | nil => exact fun dst k => ⟨fun _ i hi => absurd hi List.not_mem_nil, fun _ => ⟨_, _, rfl⟩⟩
    | cons i l ih =>
      intro dst k
      rw [List.foldlM_cons, List.forall_mem_cons]
      cases he : n.entryAt i with
      | ok e =>
        have hask : Raft.ask (·.entryAt i) { n with applied := i } = .ok e { n with applied := i } :=
          Raft.run_ask he
        have hnext : Raft.applyNext dst i { n with applied := k } =
            .ok (if e.kind = .normal then dst ++ [e] else dst) { n with applied := i } :=
          (bind_of_ok hask).trans rfl
        rw [bind_of_ok hnext]
        exact (ih _ i).trans ⟨fun h => ⟨⟨e, rfl⟩, h⟩, And.right⟩
      | error e =>
        refine ⟨fun ⟨_, _, h⟩ => ?_, fun ⟨⟨_, h⟩, _⟩ => by cases h⟩
        obtain ⟨_, _, hnext, _⟩ := bind_eq_ok.mp h
        obtain ⟨_, _, hset, hnext⟩ := bind_eq_ok.mp hnext
        cases hset
        obtain ⟨_, _, hask, _⟩ := bind_eq_ok.mp hnext
        have hno : Raft.ask (·.entryAt i) { n with applied := i } = .error e { n with applied := i } :=
          Raft.run_ask_error he
        rw [hno] at hask
        cases hask
  exact hloop _ [] n.applied

section Applied

variable {n : Node σ} {e : Entry} {suffix : List Entry}

omit [StableStore σ] in
/-- The entries behind the base. -/
theorem entryAt?_behind (hlog : n.log = e :: suffix) (i : Nat) :
    n.entryAt? (n.baseIndex + 1 + i) = suffix[i]? := by
  unfold Raft.Node.entryAt? Raft.Node.offset Raft.Node.lastIndex
  rw [hlog, List.length_cons]
  split
  · exact (List.getElem?_eq_none (by omega)).symm
  · rw [show n.baseIndex + 1 + i - n.baseIndex = i + 1 by omega]
    rfl

omit [StableStore σ] in
/-- A node that has applied nothing behind its base hands out the committed entries, if they are
there. -/
theorem applyEntries_returns (hlog : n.log = e :: suffix) (hbase : n.applied = n.baseIndex)
    (hle : n.baseIndex ≤ n.commit) (hin : n.commit ≤ n.baseIndex + suffix.length) :
    Raft.applyEntries n =
      .ok (normal (suffix.take (n.commit - n.baseIndex))) { n with applied := n.commit } := by
  have hentries : ∀ i ∈ indexes (n.applied + 1) n.commit, ∃ e, n.entryAt i = .ok e := by
    intro i hi
    rw [Raft.mem_indexes, hbase] at hi
    refine Raft.entryAt_ok (by omega) ?_ (by rw [hlog]; exact List.cons_ne_nil _ _)
    unfold Raft.Node.lastIndex
    rw [hlog, List.length_cons]
    omega
  obtain ⟨out, n', hrun⟩ := applyEntries_iff.mpr hentries
  obtain ⟨rfl, rfl⟩ := Raft.applyEntries_ok hrun
  rw [hrun]
  have hcount : (suffix.take (n.commit - n.baseIndex)).length = n.commit - n.baseIndex := by
    rw [List.length_take]
    omega
  have hrange : indexes (n.applied + 1) n.commit =
      List.range' (n.baseIndex + 1) (suffix.take (n.commit - n.baseIndex)).length := by
    unfold indexes
    rw [hcount, hbase]
    congr 1
    omega
  have hout : n.unapplied n.commit = normal (suffix.take (n.commit - n.baseIndex)) := by
    unfold Raft.Node.unapplied
    rw [hrange]
    refine Raft.filterMap_normal _ _ fun i hi => ?_
    rw [entryAt?_behind hlog, List.getElem?_take_of_lt (by omega)]
  rw [hout, show max n.applied n.commit = n.commit by omega]

omit [StableStore σ] in
theorem applyEntries_panics {out : List Entry} {n' : Node σ} (hlog : n.log = e :: suffix)
    (hbase : n.applied = n.baseIndex) (hout : n.baseIndex + suffix.length < n.commit) :
    Raft.applyEntries n ≠ .ok out n' := by
  intro hrun
  obtain ⟨e', he⟩ := applyEntries_iff.mp ⟨out, n', hrun⟩ (n.baseIndex + 1 + suffix.length)
    (Raft.mem_indexes.mpr (by omega))
  rw [Raft.entryAt_eq_ok, entryAt?_behind hlog, List.getElem?_eq_none (Nat.le_refl _)] at he
  cases he

end Applied

/-! ## Opening -/

/-- What a start reports, whatever the node looks like: the state of the snapshot cannot be
restored; or it can, the node has voters and holds the log up to its commit index, and the machine
refuses one of the committed commands behind the snapshot. -/
def Reported (recovery : Recovery) : Prop :=
  ∀ machine, Restored recovery machine →
    (recovery.snapshot.lastIndex ≠ 0 → recovery.snapshot.oldVoters ≠ 0) ∧
    recovery.hard.commit ≤ recovery.snapshot.lastIndex + recovery.suffix.length ∧
    ¬ machine.Accepts (normal (recovery.suffix.take
      (recovery.hard.commit - recovery.snapshot.lastIndex)))

omit [StableStore σ] in
theorem Restored.unique {machine machine' : Machine} (h : Restored recovery machine)
    (h' : Restored recovery machine') : machine = machine' := by
  unfold Restored at h h'
  split at h
  · rw [if_pos ‹_›, h] at h'
    exact Option.some.inj h'
  · rw [if_neg ‹_›] at h'
    rw [h, h']

omit [StableStore σ] in
/-- Replaying returns the first error of the machine. -/
theorem replayEntries_total (entries : List Entry) (s : Server σ) :
    ∃ err s', replayEntries entries s = .ok err s' ∧ s'.node = s.node ∧
      (err = none ↔ s.machine.Accepts entries) := by
  induction entries generalizing s with
  | nil => exact ⟨none, s, rfl, rfl, ⟨fun _ => trivial, fun _ => rfl⟩⟩
  | cons entry entries ih =>
    rw [replayEntries_cons]
    cases happly : (s.machine.apply entry).1 with
    | error e =>
      refine ⟨_, _, rfl, rfl, fun h => (Option.some_ne_none _ h).elim, fun h => ?_⟩
      have hok := h.1
      rw [happly] at hok
      cases hok
    | ok result =>
      obtain ⟨err, s', h, hnode, herr⟩ := ih (s.replayed entry)
      refine ⟨err, s', h, hnode, herr.trans ⟨fun h => ⟨?_, h⟩, fun h => h.2⟩⟩
      rw [happly]
      rfl

section Opened

variable {store : σ} {n : Node σ} {machine : Machine}

/-- A server is opened when its node is rebuilt and the replay returns. -/
theorem openServer_of_replay {err : Option OpenError}
    (hn : Raft.recover config.id config.peerIDs config.timeout store recovery = .ok n)
    (hreplay : replay recovery { config := config, node := n } = .ok err s) :
    openServer config store recovery = .ok (s, err) := by
  rw [openServer_of_recover hn, hreplay]

/-- The replay of the entries that the node hands out. -/
theorem openServer_replays {n' : Node σ} {entries : List Entry}
    (hn : Raft.recover config.id config.peerIDs config.timeout store recovery = .ok n)
    (hreplay : replay recovery { config := config, node := n } =
      (do replayEntries (entriesOf (← call .applyEntries)))
        { config := config, node := n, machine := machine })
    (happly : Raft.applyEntries n = .ok entries n') :
    ∃ s err, openServer config store recovery = .ok (s, err) ∧ s.node = n' ∧
      (err = none ↔ machine.Accepts entries) ∧
      (err = none → s.machine = machine.applyAll entries) := by
  have hexec : Op.exec .applyEntries n = .ok (.entries entries) n' := (bind_of_ok happly).trans rfl
  have hcall : call .applyEntries { config := config, node := n, machine := machine } =
      .ok (.entries entries) (({ config := config, node := n, machine := machine } : Server σ).called
        .applyEntries n') := call_eq_ok.mpr ⟨n', hexec, rfl⟩
  obtain ⟨err, s, hrun, hnode, herr⟩ := replayEntries_total entries
    (({ config := config, node := n, machine := machine } : Server σ).called .applyEntries n')
  refine ⟨s, err, openServer_of_replay hn (hreplay.trans ((bind_of_ok hcall).trans hrun)), hnode,
    herr, fun hnone => ?_⟩
  subst hnone
  exact (replayEntries_none hrun).2.1

omit [StableStore σ] in
theorem Restored.reported_iff {machine : Machine} (hr : Restored recovery machine) :
    Reported recovery ↔ (recovery.snapshot.lastIndex ≠ 0 → recovery.snapshot.oldVoters ≠ 0) ∧
      recovery.hard.commit ≤ recovery.snapshot.lastIndex + recovery.suffix.length ∧
      ¬ machine.Accepts (normal (recovery.suffix.take
        (recovery.hard.commit - recovery.snapshot.lastIndex))) := by
  refine ⟨fun h => h machine hr, fun h machine' hr' => ?_⟩
  rwa [hr'.unique hr]

/-- Starting returns, and not with a server over a faulted node, exactly if what was recovered is
usable or there is something to report. -/
theorem openServer_reports_iff (store : σ)
    (hvoters : Raft.initialVoters config.id config.peerIDs = .ok voters) :
    (∃ s err, openServer config store recovery = .ok (s, err) ∧
      (err = none → s.node.faulted = false)) ↔ recovery.Usable voters ∨ Reported recovery := by
  obtain ⟨n, hn⟩ := Raft.recover_total hvoters config.timeout store recovery
  rw [← Raft.recover_faulted hvoters hn]
  rcases replay_eq recovery (s := { config := config, node := n }) rfl with
    ⟨hno, hreplay⟩ | ⟨machine, hr, hreplay⟩
  · -- the snapshot cannot be restored
    refine ⟨fun _ => .inr fun machine hr => absurd hr (hno machine), fun _ => ?_⟩
    exact ⟨_, _, openServer_of_replay hn hreplay, fun h => by cases h⟩
  rw [hr.reported_iff]
  -- the server that comes up, when applying returns
  have hopened : ∀ {entries n'}, Raft.applyEntries n = .ok entries n' → n'.faulted = n.faulted →
      ((∃ s err, openServer config store recovery = .ok (s, err) ∧
        (err = none → s.node.faulted = false)) ↔
        n.faulted = false ∨ ¬ machine.Accepts entries) := by
    intro entries n' happly hfaulted
    obtain ⟨s, err, hserver, rfl, herr, _⟩ := openServer_replays hn hreplay happly
    rw [hserver, ← hfaulted]
    constructor
    · rintro ⟨_, _, ⟨⟩, hclaim⟩
      rw [← herr]
      by_cases hnone : err = none
      · exact .inl (hclaim hnone)
      · exact .inr hnone
    · intro h
      refine ⟨s, err, rfl, fun hnone => ?_⟩
      exact h.resolve_right fun hno => hno (herr.mp hnone)
  rcases Raft.recover_cases hn with ⟨hsnap, hold, hcommit, happlied⟩ |
    ⟨hvoted, ⟨e, hlog⟩, hbase, hcommit, happlied⟩
  · -- nothing is applied
    have happly : Raft.applyEntries n = .ok [] n := by
      unfold Raft.applyEntries
      show (indexes (n.applied + 1) n.commit).foldlM Raft.applyNext [] n = _
      rw [happlied, hcommit]
      rfl
    rw [hopened happly rfl]
    exact or_congr_right ⟨fun h => absurd trivial h, fun h => absurd hold (h.1 hsnap)⟩
  · have hstart : n.applied = n.baseIndex := happlied.trans hbase.symm
    rcases Nat.lt_or_ge (n.baseIndex + recovery.suffix.length) n.commit with hout | hin
    · -- applying panics, and the node is faulted
      refine ⟨fun ⟨s, err, hserver, _⟩ => ?_, fun h => ?_⟩
      · obtain ⟨n₁, hn₁, hrun⟩ := openServer_ok hserver
        rw [hn] at hn₁
        cases hn₁
        rw [hreplay] at hrun
        obtain ⟨out, _, hcall, _⟩ := bind_eq_ok.mp hrun
        obtain ⟨_, hexec, _⟩ := call_eq_ok.mp hcall
        obtain ⟨_, _, happly, _⟩ := bind_eq_ok.mp hexec
        exact absurd happly (applyEntries_panics hlog hstart hout)
      · have hle : recovery.hard.commit ≤ recovery.snapshot.lastIndex + recovery.suffix.length :=
          h.elim (fun hrunning => ((Raft.recover_faulted hvoters hn).mp hrunning).commit_le)
            fun h => h.2.1
        omega
    · rw [hopened (applyEntries_returns hlog hstart (by omega) hin) rfl]
      have hcount : n.commit - n.baseIndex =
          recovery.hard.commit - recovery.snapshot.lastIndex := by omega
      rw [hcount]
      exact or_congr_right ⟨fun h => ⟨hvoted, by omega, h⟩, fun h => h.2.2⟩

end Opened

/-! ## The whole path -/

/-- Why a data directory does not open. -/
inductive DirectoryError
  | store (error : Storage.RaftStore.Error)
  | start (error : OpenError)
  deriving DecidableEq

section Directory

variable {δ : Type} [Storage.Wal.Device δ]

/-- `Open`, from the bytes of the log and of the snapshot file on. Where the snapshot has the largest
index there is, the loop of `restoreConfigurationState` starts at index zero and panics. -/
def openDirectory (config : Config) (device : δ) (file : Option (List UInt8)) :
    Except Panic (Except DirectoryError (Server (Storage.RaftStore.Store δ))) := do
  match Storage.RaftStore.openStore device file with
  | .error e => return .error (.store e)
  | .ok (store, recovery) =>
    if recovery.snapshot.lastIndex + 1 = 2 ^ 64 ∧ recovery.snapshot.oldVoters ≠ 0 then
      throw .logIndexOutOfRange
    match ← openServer config store recovery with
    | (_, some e) => return .error (.start e)
    | (s, none) => return .ok s

section Path

variable {device : δ} {file : Option (List UInt8)} {store : Storage.RaftStore.Store δ}

/-- The node is rebuilt without a wrap. -/
def Unwrapped (recovery : Recovery) : Prop :=
  recovery.snapshot.lastIndex + 1 = 2 ^ 64 → recovery.snapshot.oldVoters = 0

instance (recovery : Recovery) : Decidable (Unwrapped recovery) :=
  inferInstanceAs (Decidable (_ → _))

theorem openDirectory_eq (hopen : Storage.RaftStore.openStore device file = .ok (store, recovery))
    (hfits : Unwrapped recovery) : openDirectory config device file =
      (openServer config store recovery).map fun opened =>
        opened.2.elim (.ok opened.1) fun e => .error (.start e) := by
  unfold openDirectory
  rw [hopen]
  simp only [if_neg (fun hwraps => hwraps.2 (hfits hwraps.1) :
    ¬ (recovery.snapshot.lastIndex + 1 = 2 ^ 64 ∧ recovery.snapshot.oldVoters ≠ 0))]
  cases openServer config store recovery with
  | error e => rfl
  | ok opened =>
    obtain ⟨s, err⟩ := opened
    cases err <;> rfl

/-- When `Open` does what it should: it returns for the directory, and if the node that it has
rebuilt is faulted, it returns an error. That is so exactly if what `raftstore.Open` returns is an
error, or else

* the snapshot is not one of the largest index with voters, and
* it is usable: the commit index is inside the log, a snapshot names voters, and
  `restoreConfigurationState` accepts the log behind it; or there is another error to report: the
  state of the snapshot cannot be restored, or a log that reaches the commit index holds a
  committed command that the machine refuses. -/
theorem open_reports_unusable
    (hvoters : Raft.initialVoters config.id config.peerIDs = .ok voters) :
    (∃ opened, openDirectory config device file = .ok opened ∧
      ∀ s, opened = .ok s → s.node.faulted = false) ↔
    ∀ store recovery, Storage.RaftStore.openStore device file = .ok (store, recovery) →
      Unwrapped recovery ∧ (recovery.Usable voters ∨ Reported recovery) := by
  cases hopen : Storage.RaftStore.openStore device file with
  | error e =>
    refine ⟨fun _ _ _ h => (nomatch h), fun _ => ⟨.error (.store e), ?_, fun s hs => nomatch hs⟩⟩
    unfold openDirectory
    rw [hopen]
    rfl
  | ok result =>
    obtain ⟨store, recovery⟩ := result
    simp only [Except.ok.injEq, Prod.mk.injEq, and_imp, forall_eq', forall_apply_eq_imp_iff]
    by_cases hfits : Unwrapped recovery
    · rw [and_iff_right hfits, ← openServer_reports_iff store hvoters, openDirectory_eq hopen hfits]
      cases openServer config store recovery with
      | error e => exact ⟨fun ⟨_, h, _⟩ => (nomatch h), fun ⟨_, _, h, _⟩ => (nomatch h)⟩
      | ok opened =>
        obtain ⟨s, err⟩ := opened
        cases err with
        | none =>
          constructor
          · rintro ⟨_, ⟨⟩, hclaim⟩
            exact ⟨s, none, rfl, fun _ => hclaim s rfl⟩
          · rintro ⟨_, _, ⟨⟩, hclaim⟩
            refine ⟨.ok s, rfl, fun s' hs => ?_⟩
            cases hs
            exact hclaim rfl
        | some e =>
          refine ⟨fun _ => ⟨s, some e, rfl, fun h => (nomatch h)⟩, fun _ => ⟨.error (.start e), rfl, ?_⟩⟩
          exact fun s' hs => nomatch hs
    · refine ⟨fun ⟨opened, hopened, _⟩ => ?_, fun h => absurd h.1 hfits⟩
      unfold openDirectory at hopened
      rw [hopen] at hopened
      simp only [if_pos (Classical.not_imp.mp hfits :
        recovery.snapshot.lastIndex + 1 = 2 ^ 64 ∧ recovery.snapshot.oldVoters ≠ 0)] at hopened
      cases hopened

end Path

end Directory

/-! ## One record

Logs with one record, written by a store and left behind by a crash. -/

section LeftBehind

open Storage (RaftStore.Planned RaftStore.Holds RaftStore.fresh RaftStore.call)

def leftBehind (op : Storage.RaftWal.Op) : Storage.Wal.MemoryDevice :=
  { durable := (RaftStore.call op RaftStore.fresh).2.wal.log.device.durable }

/-- The record comes back as the store took it. -/
theorem leftBehind_opens (op : Storage.RaftWal.Op) {refuse : Raft.Durable → Bool}
    {effect : Raft.Durable → Raft.Durable} (hop : op.InRange)
    (hplan : RaftStore.Planned op refuse effect {}) (hdone : refuse {} = false)
    (hsame : (effect {}).snapshot = {} ∧ (effect {}).base = 0) :
    ∃ store, Storage.RaftStore.openStore (leftBehind op) none =
      .ok (store, (effect {}).recovery) := by
  have hholds : RaftStore.Holds (RaftStore.call op RaftStore.fresh).2 (effect {}) := by
    have hagree := Storage.RaftStore.fresh_holds.agree op hop hplan hsame.1
    unfold Raft.Ledger.call at hagree
    rw [if_neg fun hrefused => Bool.false_ne_true (hdone.symm.trans hrefused)] at hagree
    rcases hagree with ⟨_, _, hstands⟩ | ⟨_, hno, _⟩
    · exact hstands
    · exact absurd rfl hno
  have hfile : (RaftStore.call op RaftStore.fresh).2.snapshot.file = none := by
    unfold RaftStore.call
    split <;> rfl
  obtain ⟨haccepts, hsettled⟩ := Raft.Ledger.settled (d := effect {}) (by rw [hsame.1, hsame.2])
  rcases hholds.reopen with ⟨hno, _⟩ | ⟨_, store, hopen, _⟩
  · exact absurd (haccepts.symm.trans hno) Bool.false_ne_true
  · refine ⟨store, Raft.Cluster.eq_ok_of_toOption ?_⟩
    rw [hsettled] at hopen
    rwa [← hfile]

end LeftBehind

def loneConfig : Config := { id := 1, peers := [] }

/-- The entry of an election is accepted, and a log whose commit index is ahead is not. -/
theorem open_reports_unusable_noop :
    (∃ opened, openDirectory loneConfig (leftBehind (.append 1 { term := 1, kind := .noop })) none =
      .ok opened ∧ ∀ s, opened = .ok s → s.node.faulted = false) ∧
    ¬ ∃ opened, openDirectory loneConfig (leftBehind (.saveHardState { term := 1, commit := 1 })) none =
      .ok opened ∧ ∀ s, opened = .ok s → s.node.faulted = false := by
  have hvoters : Raft.initialVoters loneConfig.id loneConfig.peerIDs = .ok 1 := rfl
  obtain ⟨store, hopen⟩ := leftBehind_opens (.append 1 { term := 1, kind := .noop }) (by decide)
    (Storage.RaftStore.planned_append Storage.RaftStore.fresh_logHolds 1 { term := 1, kind := .noop })
    (by decide) (by decide)
  obtain ⟨store', hopen'⟩ := leftBehind_opens (.saveHardState { term := 1, commit := 1 })
    (by decide) (Storage.RaftStore.planned_saveHardState Storage.RaftStore.fresh_logHolds _)
    (by decide) (by decide)
  constructor
  · refine (open_reports_unusable hvoters).mpr fun _ recovery hopened => ?_
    rw [hopen] at hopened
    cases hopened
    exact ⟨by decide, .inl (by decide)⟩
  · intro hclaim
    rcases ((open_reports_unusable hvoters).mp hclaim _ _ hopen').2 with husable | hreported
    · exact absurd husable (by decide)
    · exact absurd (hreported .new rfl).2.1 (by decide)

/-- A hard state whose commit index is ahead of the log makes `Open` panic. A change of voters
that names no old ones is refused by the node, and `Open` returns a server. -/
theorem refused_log_opens :
    openDirectory loneConfig (leftBehind (.saveHardState { term := 1, commit := 1 })) none =
      .error .logIndexOutOfRange ∧
    ∃ s, openDirectory loneConfig (leftBehind (.append 1 { term := 1, kind := .jointConfig })) none =
      .ok (.ok s) ∧ s.node.faulted = true := by
  obtain ⟨store, hopen⟩ := leftBehind_opens (.saveHardState { term := 1, commit := 1 })
    (by decide) (Storage.RaftStore.planned_saveHardState Storage.RaftStore.fresh_logHolds _)
    (by decide) (by decide)
  obtain ⟨store', hopen'⟩ := leftBehind_opens (.append 1 { term := 1, kind := .jointConfig })
    (by decide) (Storage.RaftStore.planned_append Storage.RaftStore.fresh_logHolds _ _)
    (by decide) (by decide)
  have hpanic : openServer loneConfig store
      (({} : Raft.Durable).saveHardState { term := 1, commit := 1 }).recovery =
        .error .logIndexOutOfRange := rfl
  have hserver : ∃ s, openServer loneConfig store'
      (({} : Raft.Durable).append 1 { term := 1, kind := .jointConfig }).recovery = .ok (s, none) ∧
        s.node.faulted = true := ⟨_, rfl, rfl⟩
  obtain ⟨s, hserver, hfaulted⟩ := hserver
  refine ⟨?_, s, ?_, hfaulted⟩
  · rw [openDirectory_eq hopen (by decide), hpanic]
    rfl
  · rw [openDirectory_eq hopen' (by decide), hserver]
    rfl

end Promtact.Server
