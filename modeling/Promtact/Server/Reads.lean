import Promtact.Raft.Serving
import Promtact.Server.Pending

/-!
# Reads that can still complete

A read that waits is answered once its barrier is confirmed, and only the leader that
started the barrier confirms it. So the node has to lead, with the context of the read,
for as long as the read waits. Nothing takes a read out of the queue when that ends: after
a message of a later term the read stays, and every other read is refused because of it.
-/

namespace Promtact

open Raft (Disk Node Message Op OpenStore StableStore Safe Local OpLocal OpServes)

variable {σ : Type}

namespace Server

variable [StableStore σ] {s s' : Server σ} {n₀ n : Node σ} {op : Op} {out : Raft.Output}
variable {incoming : Request} {input : Input}

/-- At most one read waits, and the node leads with its context. -/
def ReadServed (s : Server σ) : Prop :=
  s.reads = [] ∨ ∃ read, s.reads = [read] ∧ s.node.Serves read.context

/-- The input leaves a leader in office. -/
def Stays (s : Server σ) : Input → Prop
  | .message m => ¬ s.node.DeposedBy m
  | _ => True

/-- A read waits, or the input asks for one. -/
def AwaitsRead (s : Server σ) : Input → Prop
  | .request incoming => s.reads ≠ [] ∨ incoming.value.operation = .get
  | _ => s.reads ≠ []

/-- While a read waits, the input does not depose the leader, and the log holds no final
configuration at an index above Commit, whose commit could remove the leader. While a read
waits or is asked for, the server takes no snapshots, or its store fails no compaction. -/
structure Undisturbed (s : Server σ) (input : Input) : Prop where
  stays : s.reads ≠ [] → s.Stays input ∧ s.node.NoFinal
  compacts : s.AwaitsRead input → s.config.snapshotEntries = 0 ∨ s.node.Compacts

/-- The node runs. What waits can be answered, and was not put at risk by a compaction
since the node was `n₀`. -/
structure Reading (n₀ : Node σ) (s : Server σ) : Prop where
  node : Local {} s.node
  served : s.reads = [] ∨ ∃ read, s.reads = [read] ∧ n₀.ServesFrom read.context s.node

/-- A call that the node survives and that leaves it in office. -/
theorem Reading.called (hr : s.Reading n₀) (hexec : op.exec s.node = .ok out n)
    (hrunning : n.storageErr = none)
    (hserves : s.reads ≠ [] → OpServes s.node op) : (s.called op n).Reading n₀ where
  node := (Raft.exec_safe (Or.inr hr.node) (fun _ => Raft.opLocal_free s.node op) hexec).resolve_left
    fun h => h.error hrunning
  served := by
    rcases hr.served with hnone | ⟨read, hreads, hs⟩
    · exact Or.inl hnone
    · have hop' := hserves (by rw [hreads]; exact List.cons_ne_nil _ _)
      have hs' := (Raft.lwp_exec_serves hs hr.node.log_ne hop').elim hexec
      exact Or.inr ⟨read, hreads, hs'.resolve_left fun h => h.error hrunning⟩

/-- A read is parked by the node that serves it. -/
theorem startReadIndex_serves {context : Raft.Word} (hl : Local {} s.node)
    (hexec : (Op.startReadIndex context).exec s.node = .ok (.accepted true) n) :
    s.node.ServesFrom context n := by
  obtain ⟨accepted, n', hrun, hout⟩ := bind_eq_ok.mp hexec
  cases hout
  exact (Raft.lwp_startReadIndex_serves hl.log_ne).elim hrun rfl

theorem Handled.reading (hh : Handled s incoming s') (hr : s.Reading s.node)
    (hfinal : s.reads ≠ [] → s.node.NoFinal) (hrunning : s'.node.storageErr = none) :
    s'.Reading s.node := by
  cases hh with
  | status => exact ⟨hr.node, hr.served⟩
  | notLeader => exact ⟨hr.node, hr.served⟩
  | readBusy => exact ⟨hr.node, hr.served⟩
  | readRefused _ hexec _ hreads =>
    have := hr.called hexec hrunning fun h => absurd hreads h
    exact ⟨this.node, this.served⟩
  | readParked _ _ hreads hexec =>
    have := hr.called hexec hrunning fun h => absurd hreads h
    exact ⟨this.node, Or.inr ⟨_, rfl, startReadIndex_serves hr.node hexec⟩⟩
  | invalid => exact ⟨hr.node, hr.served⟩
  | cached => exact ⟨hr.node, hr.served⟩
  | joined => exact ⟨hr.node, hr.served⟩
  | refused _ _ _ hexec =>
    have := hr.called hexec hrunning hfinal
    exact ⟨this.node, this.served⟩
  | proposed _ _ _ _ hexec =>
    have := hr.called hexec hrunning hfinal
    exact ⟨this.node, this.served⟩

theorem Taken.reading (ht : Taken s input s') (hr : s.Reading s.node)
    (hstays : s.reads ≠ [] → s.Stays input ∧ s.node.NoFinal)
    (hrunning : s'.node.storageErr = none) : s'.Reading s.node := by
  cases ht with
  | message hexec => exact hr.called hexec hrunning hstays
  | tick hexec => exact hr.called hexec hrunning fun _ => trivial
  | request hh => exact hh.reading hr (fun h => (hstays h).2) hrunning

/-- A read is only parked by an input that asks for it. -/
theorem Taken.awaitsRead (ht : Taken s input s') (hreads : s'.reads ≠ []) :
    s.AwaitsRead input ∧ s'.config = s.config := by
  cases ht with
  | message hexec => exact ⟨hreads, rfl⟩
  | tick hexec => exact ⟨hreads, rfl⟩
  | request hh =>
    cases hh with
    | readParked hget => exact ⟨Or.inr hget, rfl⟩
    | status | notLeader | readBusy | readRefused | invalid | cached | joined | refused | proposed =>
      exact ⟨Or.inl hreads, rfl⟩

omit [StableStore σ] in
theorem ReadServed.afterReads (hs : s.ReadServed) : s.afterReads.ReadServed := by
  rcases hs with hnone | ⟨read, hreads, hs⟩
  · exact Or.inl (by simp [Server.afterReads, hnone])
  · cases hread : (s.answerTo read).isNone with
    | false => exact Or.inl (by simp [Server.afterReads, hreads, hread])
    | true => exact Or.inr ⟨read, by simp [Server.afterReads, hreads, hread], hs⟩

/-- A compaction that the store does not fail. -/
theorem Compacted.readServed (hc : Compacted s s') (hr : s.Reading n₀)
    (hrunning : s.node.storageErr = none)
    (hstore : s.reads ≠ [] → s.config.snapshotEntries = 0 ∨ n₀.Compacts) : s'.ReadServed := by
  rcases hr.served with hnone | ⟨read, hreads, hs⟩
  · cases hc with
    | kept => exact Or.inl hnone
    | called => exact Or.inl hnone
  · refine Or.inr ⟨read, ?_⟩
    cases hc with
    | kept => exact ⟨hreads, hs.1⟩
    | called hyes hexec =>
      obtain ⟨_, _, hrun, hout⟩ := bind_eq_ok.mp hexec
      cases hout
      have hcompacts := (hstore (by simp [hreads])).resolve_left hyes.1
      exact ⟨hreads, ((Raft.lwp_compact_serves hs hcompacts hrunning).elim hrun).2⟩

theorem Reading.applied {entries : List Raft.Entry} (hr : (s.called .applyEntries n).Reading n₀) :
    (s.applied n entries).Reading n₀ := by
  refine ⟨by rw [applied_node]; exact hr.node, ?_⟩
  rw [applied_node]
  unfold Server.applied
  rw [afterEntries_eq]
  exact hr.served

/-- A completed round. -/
theorem Round.readServed (hround : Round s input true s') (hl : Local {} s.node)
    (hserved : s.ReadServed) (hu : s.Undisturbed input) : s'.ReadServed := by
  have hr : s.Reading s.node := by
    refine ⟨hl, hserved.imp_right ?_⟩
    rintro ⟨read, hreads, hs⟩
    exact ⟨read, hreads, hs.from_self⟩
  cases hround with
  | @completed s₁ _ entries _ htaken hrunning happly hcompact =>
    have hr₁ := htaken.reading hr hu.stays hrunning
    have hsend : s₁.afterSend.Reading s.node := ⟨hr₁.node.of_core rfl, hr₁.served⟩
    have hn := happly
    obtain ⟨_, _, hrun, hout⟩ := bind_eq_ok.mp happly
    cases hout
    obtain ⟨rfl, rfl⟩ := Raft.applyEntries_ok hrun
    have hr₂ := hsend.called hn hrunning fun _ => trivial
    refine (hcompact.readServed hr₂.applied (by rw [applied_node]; exact hrunning) ?_).afterReads
    unfold Server.applied
    rw [afterEntries_eq]
    intro hreads
    obtain ⟨hwaits, hconfig⟩ := htaken.awaitsRead hreads
    exact hconfig ▸ hu.compacts hwaits

end Server

namespace Host

variable [OpenStore σ] {s₀ s : Server σ} {events : List Event} {config : Server.Config} {store : σ}

/-- Every input is taken undisturbed. -/
def Undisturbed (h : Host σ) : Event → Prop
  | .input input => ∀ s, h = .up s → s.Undisturbed input
  | .restart _ => True

/-- At most one read waits, and the node leads with its context, in every run in which the
following holds of each input. While a read waits, the input is not a message that makes
the leader step down, and the log holds no final configuration at an index above Commit.
While a read waits or is asked for, snapshots are switched off, or the store, as it is
before the round and after any writes to it, saves a snapshot and cuts the log. -/
theorem parked_read_is_served (hnew : Server.new config store = .ok s₀)
    (hevents : Runs.Always next Undisturbed (.up s₀) events)
    (hrun : Runs.run next (.up s₀) events = some (.up s)) (hreads : s.reads ≠ []) :
    ∃ read, s.reads = [read] ∧ s.node.state = .leader ∧ s.node.readContext = read.context := by
  have hI : s.ReadServed ∧ Safe {} s.node := by
    refine run_server (I := fun s => s.ReadServed ∧ Safe {} s.node) ?_ ?_ ?_ hevents hrun
    · obtain ⟨n, hn, rfl⟩ := new_ok hnew
      exact ⟨Or.inl rfl, Or.inr (Raft.local_new (fun _ _ => False.elim) hn)⟩
    · rintro s input s' ⟨hserved, hsafe⟩ hp hloop
      have hr := Server.round_of_ok hloop
      have hl : Local {} s.node := hsafe.resolve_left fun h => hr.not_stopped { h with }
      have hu := hp s rfl
      refine ⟨hr.readServed hl hserved ⟨hu.stays, fun hw => hu.compacts ?_⟩, ?_⟩
      · cases input with
        | message | request | tick => exact hw
      · exact hr.keeps hsafe (fun _ _ _ _ => Raft.exec_safe hsafe fun _ => Raft.opLocal_free _ _)
          fun hexec _ hI => Raft.exec_safe hI (fun _ => Raft.opLocal_free _ _) hexec
    · intro config store recovery s' hopen
      obtain ⟨⟨hsafe, _⟩, _, hreads⟩ := start_local (W := {}) (fun _ _ => False.elim) hopen
      exact ⟨Or.inl hreads, hsafe⟩
  obtain ⟨read, hread, hs⟩ := hI.1.resolve_left hreads
  exact ⟨read, hread, hs⟩

/-- Node 1 is elected by node 2, which also acknowledges the first entry. -/
def committedBySecond : List Event :=
  electedBySecond ++
    [.input (.message { type := .appendResponse, fromID := 2, toID := 1, term := 1, matchIndex := 1 })]

/-- Client 1 reads key 5. -/
def getRequest : Event := .input (.request ⟨⟨.get, 1, 1, 5, 0⟩, 0⟩)

theorem parked_read_is_served_getRequest : ∃ s read,
    Runs.run next (.up firstServer) (committedBySecond ++ [getRequest]) = some (.up s) ∧
    s.reads = [read] ∧ s.node.state = .leader ∧ s.node.readContext = read.context := by
  have hnew : Server.new firstConfig ({} : Disk) = .ok firstServer := rfl
  obtain ⟨_, hrun, s, rfl, hreads⟩ := Runs.run_check next (.up firstServer)
    (committedBySecond ++ [getRequest]) (fun h => ∃ s, h = .up s ∧ s.reads ≠ []) (by decide +kernel)
  have hquiet : Runs.Always next (fun h _ => ∀ s, h = .up s →
      s.reads = [] ∧ s.config.snapshotEntries = 0) (.up firstServer)
      (committedBySecond ++ [getRequest]) := by decide +kernel
  have hevents : Runs.Always next Undisturbed (.up firstServer)
      (committedBySecond ++ [getRequest]) := by
    refine hquiet.mono fun h ev hq => ?_
    cases ev with
    | restart config => trivial
    | input input =>
      exact fun s hs => ⟨fun hreads => absurd (hq s hs).1 hreads, fun _ => Or.inl (hq s hs).2⟩
  obtain ⟨read, hread⟩ := parked_read_is_served hnew hevents hrun hreads
  exact ⟨s, read, hrun, hread⟩

/-- Node 3 asks for a vote in the next term. -/
def deposedByThird : Event :=
  .input (.message { type := .requestVote, fromID := 3, toID := 1, term := 2 })

/-- The leader steps down, and its read stays. -/
theorem deposed_leader_keeps_read : ∃ s read,
    Runs.run next (.up firstServer) (committedBySecond ++ [getRequest, deposedByThird]) =
      some (.up s) ∧ s.reads = [read] ∧ s.node.state = .follower := by
  obtain ⟨_, hrun, s, rfl, hlen, hstate⟩ := Runs.run_check next (.up firstServer)
    (committedBySecond ++ [getRequest, deposedByThird]) (fun h => ∃ s, h = .up s ∧
      (s.reads.length = 1 ∧ s.node.state = .follower)) (by decide +kernel)
  obtain ⟨read, hreads⟩ := List.length_eq_one_iff.mp hlen
  exact ⟨s, read, hrun, hreads, hstate⟩

end Host

end Promtact
