import Promtact.Raft.Steady
import Promtact.Storage.RaftStore

/-!
# Nodes over files survive a crash

A cluster over `raftstore`, on media that work, takes the steps of a cluster over
ledgers, as long as the numbers in the store calls fit their machine words. So what
holds for stores that never fail holds for the files: `survives_crash` opens what a
crash left and finds the node that was there.
-/

namespace Promtact.Storage.RaftStore

open Promtact.Raft

/-- The store of a server, with the calls that were made to it. -/
abbrev Files := Recorder (Store Wal.MemoryDevice)

/-- An empty medium, and no snapshot file. -/
def noFiles : Files := { store := fresh }

variable {voters : Word} {c₀ c : Cluster Files} {events : List Event}

/-- A cluster over files, seen as one over ledgers. -/
theorem matches_ledgers (hnew : c₀.New voters noFiles) (hrun : c₀.run voters events = some c)
    (hrange : c.InRange) : ∃ d₀ d : Cluster (Ledger false), d₀.Initial voters ∧
      d₀.run voters events = some d ∧ link.Matches c d := by
  have hempty : link.rel noFiles {} := ⟨fun _ hno => absurd hno List.not_mem_nil, fresh_holds⟩
  obtain ⟨d₀, hnew', hm⟩ := hnew.matches (B := link.toBond) hempty
  obtain ⟨d, hrun', hm'⟩ := hm.run (L := link) hrun fun ⟨id, s, hs, hlost⟩ => hlost (hrange id s hs)
  exact ⟨d₀, d, hnew'.initial rfl, hrun', hm'⟩

/-- With fixed voters, a node over files is always running, its log is on the medium
from its base on, and what a crash leaves opens and gives the node that was there. -/
theorem survives_crash (hnew : c₀.New voters noFiles)
    (hev : ∀ ev ∈ events, ev.reconfigures = false) (hrun : c₀.run voters events = some c)
    (hrange : c.InRange) {id : Nat} {s : Node Files} (hup : c.procs id = .up s) :
    s.faulted = false ∧ s.Stored s.store.store.wal.base s.store.store.wal.data ∧
      ∀ peers timeout, initialVoters id peers = .ok voters →
        ∃ store recovery s', openStore ({ durable := s.store.store.wal.log.device.durable } :
            Wal.MemoryDevice) s.store.store.snapshot.file = .ok (store, recovery) ∧
          recover id peers timeout store recovery = .ok s' ∧ s.Rebuilt s' := by
  obtain ⟨d₀, d, hinit, hrun', hm⟩ := matches_ledgers hnew hrun hrange
  have hproc := hm.procs id
  rw [hup] at hproc
  cases hup' : d.procs id with
  | absent => rw [hup'] at hproc; exact hproc.elim
  | down t => rw [hup'] at hproc; exact hproc.elim
  | up t =>
    rw [hup'] at hproc
    obtain ⟨ledger, err, rfl, _, hs⟩ := hproc.eq_over
    obtain ⟨hrunning, hstored, hbase, hrebuilt⟩ := hinit.steady ledger_reliable hev hrun' hup'
    replace hs : Holds s.store.store ledger.content := hs
    refine ⟨hrunning, ?_, fun peers timeout hv => ?_⟩
    · rw [hs.log.1, hs.log.2.2.1]
      exact ⟨hstored.base_eq, hstored.suffix, hstored.base_term⟩
    · obtain ⟨haccept, hsettle⟩ := Ledger.settled hbase
      obtain ⟨s', hrec, hsame⟩ := hrebuilt peers timeout hv
      rcases hs.reopen with ⟨hrefuse, _⟩ | ⟨_, store, hopen, _⟩
      · exact absurd (haccept.symm.trans hrefuse) (by decide)
      · obtain ⟨err', hrec'⟩ := recover_ok store hrec
        refine ⟨store, _, s'.over store err', Cluster.eq_ok_of_toOption hopen, ?_, ?_⟩
        · rw [show ledger.content.settle = ledger.content from hsettle]
          exact hrec'
        · exact ⟨hsame.running, hsame.hard, hsame.base, hsame.suffix, hsame.snapshot, hsame.voters⟩

/-! The nodes of `catchUpRun`, up to the restart at its end, each over its own files. -/

def servers : Cluster Files := .start [1, 2, 3] (fun id => id) noFiles

theorem servers_new : servers.New 7 noFiles := Cluster.start_new (by decide)

theorem inRange_of_ids {ids : List Nat} {timeout : Nat → Nat} {store : Files}
    (hrun : (Cluster.start ids timeout store).run voters events = some c)
    (hids : ∀ id ∈ ids, ∃ s, c.procs id = .up s ∧ s.store.InRange) : c.InRange := by
  intro id s hs
  by_cases hid : id ∈ ids
  · obtain ⟨s', hs', hin⟩ := hids id hid
    rw [hs'] at hs
    cases hs
    exact hin
  · rw [Cluster.run_absent (if_neg hid) hrun] at hs
    cases hs

theorem survives_crash_catchUpRun : ∃ (c : Cluster Files) (s : Node Files),
    servers.run 7 catchUpRun.dropLast = some c ∧ c.procs 3 = .up s ∧ (s.baseIndex, s.commit) = (1, 1) ∧
    ∃ store recovery s', openStore ({ durable := s.store.store.wal.log.device.durable } :
        Wal.MemoryDevice) s.store.store.snapshot.file = .ok (store, recovery) ∧
      recover 3 [1, 2] 3 store recovery = .ok s' ∧ s.Rebuilt s' := by
  obtain ⟨c, _, hc, _, ⟨s, hup, hs⟩, hrange⟩ := servers.run_check 7 catchUpRun.dropLast [] (fun c _ =>
    (∃ s, c.procs 3 = .up s ∧ (s.baseIndex, s.commit) = (1, 1)) ∧
    ∀ id ∈ ([1, 2, 3] : List Nat), ∃ s, c.procs id = .up s ∧ s.store.InRange) (by decide +kernel)
  obtain ⟨_, _, hopen⟩ := survives_crash servers_new (by decide +kernel) hc
    (inRange_of_ids hc hrange) hup
  exact ⟨c, s, hc, hup, hs, hopen [1, 2] 3 rfl⟩

end Promtact.Storage.RaftStore
