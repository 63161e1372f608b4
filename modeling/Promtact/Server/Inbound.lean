import Promtact.Raft.Panics
import Promtact.Server.Host

/-!
# Bytes from the network

A connection of a peer carries one frame; what it decodes to goes to the loop when it is
addressed to this server (`acceptPeers`). The decoder passes every field through, so the
message may say anything.

A node that gets such a message returns from `Step` exactly if the sender is the ID of a
node, or the handler does not come to ask for its bit. Before that, no message may have
contradicted an entry that the node has committed: the order of the indexes rests on it.

Indexes and terms of the model are natural numbers and those of the code are of type
uint64. A snapshot at index 2^64 - 1 makes `Commit + 1` wrap to 0 in the code, and the
lookup of that index panics. So the result is about nodes and messages whose numbers, with
the one that a step adds, stay below 2^64 (`Fits`).
-/

namespace Promtact

open Protocol (readFrame decodePeer)
open Raft (Disk Node Message OpenStore Safe Watch)

variable {σ : Type}

namespace Server

/-- The message of a connection, when there is one for this server. -/
def acceptPeer (id : Nat) (connection : List UInt8) : Option Message :=
  match (readFrame connection).1 with
  | .ok (.peer, payload) =>
    match decodePeer payload with
    | .ok message => if message.toID = id then some message else none
    | .error _ => none
  | _ => none

end Server

/-- A message that contradicts nothing the node has committed. -/
def Raft.Node.Agrees (n : Node σ) (m : Message) : Prop := n.KeepsCommitted m ∧ n.HoldsCommitted m

instance (n : Node σ) (m : Message) : Decidable (n.Agrees m) :=
  inferInstanceAs (Decidable (n.KeepsCommitted m ∧ n.HoldsCommitted m))

/-- With one more entry and one more term, the numbers of the node are below 2^64 - 1. -/
def Raft.Node.Fits (n : Node σ) : Prop := n.lastIndex + 2 < 2 ^ 64 ∧ n.term + 2 < 2 ^ 64

/-- The numbers of the message that a node may take over, or add one to, are below 2^64 - 1. -/
def Raft.Message.Fits (m : Message) : Prop :=
  m.term + 1 < 2 ^ 64 ∧ m.matchIndex + 1 < 2 ^ 64 ∧ m.snapshotIndex + 1 < 2 ^ 64

/-- A message for which the model is exact, and which contradicts nothing that the node has
committed. -/
def Raft.Node.Admits (n : Node σ) (m : Message) : Prop := n.Agrees m ∧ n.Fits ∧ m.Fits

instance (n : Node σ) : Decidable n.Fits := by
  unfold Raft.Node.Fits
  infer_instance

instance (m : Message) : Decidable m.Fits := by
  unfold Raft.Message.Fits
  infer_instance

instance (n : Node σ) (m : Message) : Decidable (n.Admits m) := by
  unfold Raft.Node.Admits
  infer_instance

theorem Raft.Node.Agrees.stepLocal {W : Watch} {n : Node σ} {m : Message} (h : n.Agrees m)
    (hpend : ¬ W.pend) (hknown : ¬ W.known) (hfree : ∀ i e, ¬ W.keep i e) (htotal : ¬ W.total) :
    Raft.StepLocal W n m where
  append _ := h.1
  cut _ _ _ _ _ _ _ i e hk := absurd hk (hfree i e)
  snapshot htype hterm hold hlt := {
    held := fun _ => h.2 htype hterm hold hlt
    pending := fun hp => absurd hp hpend
    known := fun hk => absurd hk hknown
    kept := fun i e hk => absurd hk (hfree i e) }
  sender ht := absurd ht htotal

namespace Host

variable [OpenStore σ] {s₀ s : Server σ} {events : List Event} {config : Server.Config} {store : σ}

/-- A node that runs takes a message that it admits, and any other input while its numbers
fit. -/
def Admits (h : Host σ) (ev : Event) : Prop :=
  h.Meets (fun s => s.node.Admits) ev ∧ ∀ s, h = .up s → s.node.Fits

instance (h : Host σ) (ev : Event) : Decidable (h.Admits ev) := by
  unfold Admits
  infer_instance

/-- Bytes that reach a node do not make it panic, exactly if the message names a sender
between 1 and 64 or its handler does not come to ask for the sender's bit. The handler asks in
a node that runs, and for a vote in a later term only once that term is saved. Up to here no
message has contradicted an entry that the node had committed; this one may. Neither this
message nor one before it brings an index or a term to the end of uint64, so the index at which
the loops over the log begin does not wrap. -/
theorem step_returns (hnew : Server.new config store = .ok s₀)
    (hadmits : Runs.Always next Admits (.up s₀) events)
    (hrun : Runs.run next (.up s₀) events = some (.up s)) :
    ∀ (connection : List UInt8) (m : Message),
      Server.acceptPeer s.config.id connection = some m → s.node.Fits → m.Fits →
      ((∃ n, Raft.step m s.node = .ok () n) ↔ s.node.Identifies m) ∧
        (s.node.faulted = false → max (s.node.commit + 1) (s.node.baseIndex + 1) < 2 ^ 64) := by
  intro _ m _ hfits _
  obtain ⟨hsafe, hsilent⟩ := run_local (W := { settled := True }) (fun _ _ => False.elim) hnew
    (hadmits.mono fun h ev hadmits => hadmits.1.mono fun s m hm =>
      hm.1.stepLocal id id (fun _ _ => False.elim) id) hrun
  rcases hsafe with hstopped | hl
  · have hstep : Raft.step m s.node = .ok () s.node := by
      unfold Raft.step
      rw [Server.get_bind, if_pos hstopped.faulted]
      rfl
    refine ⟨⟨fun _ => Raft.identifies_of_step hstep, fun _ => ⟨s.node, hstep⟩⟩, fun hrunning => ?_⟩
    rw [hstopped.faulted] at hrunning
    cases hrunning
  · refine ⟨Raft.step_returns_iff hl hsilent, fun _ => ?_⟩
    obtain ⟨hbase, happlied, hcommit⟩ := hl.bounds trivial
    have hlast := hfits.1
    omega

/-- Node 1 of three, with an empty data directory. -/
def firstConfig : Server.Config := { id := 1, peers := [1, 2, 3], electionTicks := 1 }

def firstServer : Server Disk where
  config := firstConfig
  node := { id := 1, peers := [2, 3], timeout := 1, store := {}, votersOld := 7 }

/-- Node 2 asks for the vote of node 1, and has it append its first entry. -/
def ledBySecond : List Event :=
  [.input .tick, .input (.message { type := .requestVote, fromID := 2, toID := 1, term := 1 })]

def firstAppend : Message :=
  { type := .append, fromID := 2, toID := 1, term := 1, hasEntry := true
    entry := { term := 1, kind := .noop } }

theorem acceptPeer_encode {m : Message} (hin : Protocol.InRange m)
    (hlen : m.snapshot.length ≤ 2 ^ 20 - 176) :
    Server.acceptPeer m.toID (Protocol.encodeFrame .peer (Protocol.encodePeer m)) = some m := by
  have hfits : (Protocol.encodePeer m).length ≤ Protocol.maxFrameSize := by
    rw [Protocol.length_encodePeer]
    unfold Protocol.maxFrameSize Protocol.peerFixedSize
    omega
  have hframe := Protocol.readFrame_encodeFrame .peer hfits []
  rw [List.append_nil] at hframe
  unfold Server.acceptPeer
  rw [hframe]
  simp only [Protocol.decodePeer_encodePeer hin (by omega), if_true]

theorem step_returns_firstAppend : ∃ s n, Runs.run next (.up firstServer) ledBySecond = some (.up s) ∧
    Server.acceptPeer s.config.id (Protocol.encodeFrame .peer (Protocol.encodePeer firstAppend)) =
      some firstAppend ∧ Raft.step firstAppend s.node = .ok () n := by
  obtain ⟨_, hrun, s, rfl, hid, hfits, hsender⟩ := Runs.run_check next (.up firstServer) ledBySecond
    (fun h => ∃ s, h = .up s ∧ (s.config.id = 1 ∧ s.node.Fits ∧ s.node.Identifies firstAppend))
    (by decide +kernel)
  have haccept : Server.acceptPeer s.config.id
      (Protocol.encodeFrame .peer (Protocol.encodePeer firstAppend)) = some firstAppend := by
    rw [hid]
    exact acceptPeer_encode (m := firstAppend) (by decide) (by decide)
  have hnew : Server.new firstConfig ({} : Disk) = .ok firstServer := rfl
  obtain ⟨hreturns, _⟩ := step_returns hnew (by decide +kernel) hrun _ _ haccept hfits (by decide)
  obtain ⟨n, hstep⟩ := hreturns.mpr hsender
  exact ⟨s, n, hrun, haccept, hstep⟩

/-- A pre-vote of a sender that is not a node. -/
def unknownSender : Message := { type := .preVote, fromID := 0, toID := 1, term := 1 }

/-- A new server does not survive a pre-vote from node 0. -/
theorem unknown_sender_panics : Server.new firstConfig ({} : Disk) = .ok firstServer ∧
    Server.acceptPeer firstConfig.id (Protocol.encodeFrame .peer (Protocol.encodePeer unknownSender)) =
      some unknownSender ∧
    ∃ n, Raft.step unknownSender firstServer.node = .error .nodeIDOutOfRange n :=
  ⟨rfl, acceptPeer_encode (m := unknownSender) (by decide) (by decide), _, rfl⟩

end Host

end Promtact
