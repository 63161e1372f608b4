import Promtact.GhostState
import Promtact.Raft.Cluster
import Promtact.Raft.LogView

/-!
# The invariant of a cluster

Every state of a cluster is related to a history of the replicated-log library.

* `Live` relates a running node: its memory and its store both hold what the
  history says this node has made durable.
* `Dead` relates a node that a store error has stopped, `Down` one that panicked.
  Their stores still hold what the history says, and what they had committed is
  committed in the history.
* `MsgInv` says what a message may claim: a vote, an acknowledgement, a prefix of
  a leader's log, a committed prefix.

Each part is stated over the fields it reads, so that an update of another field
keeps it without a proof. A `Setting` fixes what differs between the results:
whether the voters may change, what the state of a snapshot has to be, which read
barriers were started, and whether the stores can fail.
-/

namespace Promtact.Raft

open QuorumLog GhostState

variable {σ : Type} [LawfulStore σ]

/-! What is asked of a setting about things that never happen in it. -/

theorem store_of_never {snug : Prop} : False → Reliable σ snug := False.elim

theorem orderly_of_never {reconf orderly : Prop} : False → reconf → orderly := False.elim

theorem fixed_of_never {reconf : Prop} : False → ¬ reconf := False.elim

theorem tidy_of_never {reconf orderly : Prop} : False → reconf ∧ orderly := False.elim

structure Setting (σ : Type) [LawfulStore σ] where
  /-- The initial voters. -/
  voters : Word
  /-- The voters may change. -/
  reconf : Prop
  /-- Changing voters, and no restart meets a log that it refuses. -/
  orderly : Prop
  /-- What the state in a snapshot has to be, for the log it covers. -/
  Image : List Entry → List UInt8 → Prop
  /-- No context of a read barrier is used twice. -/
  fresh : Prop
  /-- The history at the moment a node started a read barrier. -/
  started : Nat → Word → Option (History Nat Entry)
  /-- The stores never fail. -/
  reliable : Prop
  /-- Nodes only take over snapshots whose last entry they hold. -/
  snug : Prop := False
  reliable_store : reliable → Reliable σ snug
  reliable_orderly : reliable → reconf → orderly
  fresh_fixed : fresh → ¬ reconf
  /-- Every ID that a caller names is a node ID, and nothing goes wrong. -/
  calm : Prop := False
  calm_reliable : calm → reliable := by exact False.elim
  calm_fixed : calm → ¬ reconf := by exact Promtact.Raft.fixed_of_never
  /-- Only initial voters are ever made voters. -/
  closed : Prop := False
  /-- Between operations no node holds two changes of voters that it does not know to be
  committed. -/
  tidy : Prop := False
  tidy_orderly : tidy → reconf ∧ orderly := by exact Promtact.Raft.tidy_of_never
  /-- No store ever does. -/
  neat : Prop := False
  /-- No store ever holds a snapshot from beyond its log. -/
  reach : Prop := False
  /-- What the state in a snapshot of the node's own store has to be. -/
  Own : Nat → List Entry → List UInt8 → Prop := fun _ _ _ => True
  /-- The normal entries that leaders append to a log. -/
  Legal : List Entry → Entry → Prop := fun _ _ => True

namespace Setting

abbrev P (K : Setting σ) : Protocol Nat Entry := protocol K.voters

/-- The voters of a stopped node are known as well. -/
def Traced (K : Setting σ) : Prop := K.reconf → K.orderly

/-- In a closed setting the mask only has initial voters. -/
def Within (K : Setting σ) (mask : Word) : Prop :=
  K.closed → ∀ id, Member mask id → Member K.voters id

/-- The entries that leaders append to a log. -/
def Allows (K : Setting σ) (x : List Entry) (e : Entry) : Prop :=
  (IsConfig e → K.reconf ∧ K.Within (e.oldVoters ||| e.newVoters)) ∧
    (e.kind = .normal → K.Legal x e)

/-- Every entry of the log may be appended to what is in front of it. -/
def AllowsLog (K : Setting σ) (x : List Entry) : Prop := ∀ y e, y ++ [e] <+: x → K.Allows y e

theorem AllowsLog.mem {K : Setting σ} {x : List Entry} {e : Entry} (hx : K.AllowsLog x)
    (he : e ∈ x) : ∃ y, K.Allows y e := by
  obtain ⟨y, z, rfl⟩ := List.append_of_mem he
  exact ⟨y, hx y e ⟨z, by simp⟩⟩

theorem AllowsLog.concat {K : Setting σ} {x : List Entry} {e : Entry} (hx : K.AllowsLog x)
    (he : K.Allows x e) : K.AllowsLog (x ++ [e]) := by
  intro y f hpre
  rcases List.prefix_concat_iff.mp hpre with heq | hold
  · obtain ⟨rfl, hlast⟩ := List.append_inj' heq rfl
    cases hlast
    exact he
  · exact hx y f hold

end Setting

variable (K : Setting σ)

/-! ## Histories -/

/-- What leaders ever appended. -/
def Allowed (h : History Nat Entry) : Prop :=
  ∀ t r, h.lead t = some r → K.AllowsLog r.log

/-- At most one change of voters is behind the commit index. -/
def Single (x : List Entry) (commit : Nat) : Prop :=
  ∀ a b, commit < a → a < b → K.P.ConfAt x a → ¬ K.P.ConfAt x b

structure Sane (h : History Nat Entry) : Prop where
  valid : h.Valid K.P
  wf : ∀ t r, h.lead t = some r → WellFormed K.voters r.log
  allowed : Allowed K h
  voter : ∀ t r, h.lead t = some r → Member K.voters r.who
  before : ∀ a c h₀, K.started a c = some h₀ →
    h₀.Valid K.P ∧ Allowed K h₀ ∧ ∀ m, h₀.term m ≤ h.term m

/-- The histories that a state may be related to. -/
def Hist : Type := { h : History Nat Entry // Sane K h }

/-- Node `n` made the steps between the two histories. -/
def Hist.Rel (n : Nat) (g g' : Hist K) : Prop := History.Grows n g.1 g'.1

instance (n : Nat) : IsPreorder (Hist K) (Hist.Rel K n) where
  refl g := History.Grows.refl n g.1
  trans _ _ _ := History.Grows.trans

/-! ## Snapshots and messages -/

/-- The snapshot is one of the log `y`. -/
def Describes (y : List Entry) (snap : Snapshot) : Prop :=
  snap.lastIndex = y.length ∧ snap.lastTerm = K.P.lastTerm y ∧
    configAfter K.voters y = (snap.oldVoters, snap.newVoters) ∧ K.Image y snap.state

/-- The snapshot is one of a log that was committed up to term `t`. -/
def SnapFact (h : History Nat Entry) (t : Nat) (snap : Snapshot) : Prop :=
  ∃ y, y ≠ [] ∧ h.Committed t y ∧ Describes K y snap

/-- The snapshot in the store of node `n`. -/
def OwnFact (h : History Nat Entry) (n : Nat) (snap : Snapshot) : Prop :=
  ∃ y, y ≠ [] ∧ h.Committed (h.term n) y ∧ Describes K y snap ∧ K.Own n y snap.state

/-- What an append carries comes from the log of its leader. -/
structure AppendInv (h : History Nat Entry) (m : Message) (r : Reign Nat Entry) : Prop where
  lead : h.lead m.term = some r
  who : r.who = m.fromID
  index_le : m.logIndex ≤ r.log.length
  term_eq : K.P.termAt r.log m.logIndex = m.logTerm
  entry_eq : m.hasEntry = true → r.log[m.logIndex]? = some m.entry
  commit_le : m.commit ≤ r.log.length
  committed : h.Committed m.term (r.log.take m.commit)
  alone : K.tidy → m.hasEntry = true → IsConfig m.entry →
    ∀ a ≤ m.logIndex, K.P.ConfAt r.log a → a ≤ m.commit
  context : K.fresh → m.context ≠ 0 →
    ∃ h₀, K.started m.fromID m.context = some h₀ ∧ h₀.term m.fromID = m.term

/-- An acknowledgement with a context was sent after the barrier started. -/
def AckContext (m : Message) : Prop :=
  K.fresh → m.context ≠ 0 → ∃ h₀, K.started m.toID m.context = some h₀ ∧
    h₀.term m.toID = m.term ∧ h₀.term m.fromID ≤ m.term

/-- What a message of each type may claim. -/
def Claim (h : History Nat Entry) (m : Message) : Prop :=
  match m.type with
  | .requestVote => ∃ x k, h.cand m.fromID m.term = some (x, k) ∧ x.length = m.logIndex ∧
      K.P.lastTerm x = m.logTerm
  | .requestVoteResponse => m.reject = false → h.vote m.fromID m.term = some m.toID
  | .append => ∃ r, AppendInv K h m r
  | .appendResponse => m.reject = false →
      m.matchIndex ≤ h.ack m.fromID m.term ∧ AckContext K m
  | .installSnapshot => m.snapshotOld ≠ 0 →
      (∃ r, h.lead m.term = some r ∧ r.who = m.fromID) ∧ SnapFact K h m.term m.asSnapshot
  | .installSnapshotResponse => m.reject = false → m.matchIndex ≤ h.ack m.fromID m.term
  | _ => True

structure MsgInv (h : History Nat Entry) (m : Message) : Prop where
  voter : Member K.voters m.fromID
  other : m.fromID ≠ m.toID
  claim : Claim K h m
  state : m.snapshot = [] ∨ ∃ y, K.Image y m.snapshot

/-! ## Nodes -/

/-- The node is a voter of the start, and its peers are other nodes. -/
structure Named (n id : Nat) (peers : List Nat) : Prop where
  own : id = n
  voter : Member K.voters n
  peer : ∀ p ∈ peers, 0 < p ∧ p ≤ 64 ∧ p ≠ n
  closed : K.closed → initialVoters n peers = .ok K.voters

/-- The vote of a node in its term. -/
def Voted (h : History Nat Entry) (n term votedFor : Nat) : Prop :=
  h.term n = term ∧ h.vote n term = if votedFor = 0 then none else some votedFor

/-- The log of a node that has made `x` durable and knows `k` entries of it to be
committed. -/
structure Logged (x : List Entry) (k : Nat) (log : List Entry)
    (base baseTerm commit applied : Nat) : Prop where
  view : View K.voters x base log
  commit_eq : k = commit
  base_le : base ≤ applied
  applied_le : applied ≤ commit
  baseTerm_eq : baseTerm = K.P.termAt x base

/-- Which parts of the invariant hold in the middle of an operation: a new leader
has not reset its match indexes yet, a proposed change is not yet marked as
pending, the commit index does not follow the leader's yet. -/
structure Mode where
  acks : Prop
  pend : Prop
  single : Prop

/-- Between operations everything holds. -/
def Mode.full : Mode := ⟨True, True, True⟩

/-- A follower has stored an entry, and its commit index has not moved yet. -/
def Mode.trailing : Mode := ⟨True, True, False⟩

/-- The voters after the first `j` entries, and the pending change behind them. -/
def Configured (M : Mode) (x : List Entry) (j : Nat) (old new : Word) (pending : Nat) : Prop :=
  configAfter K.voters (x.take j) = (old, new) ∧
    (M.pend → ∀ a, j < a → K.P.ConfAt x a → pending ≠ 0 ∧ a ≤ pending)

/-- The node is the leader of its term. -/
def Reigns (h : History Nat Entry) (n : Nat) : Prop :=
  ∃ r, h.lead (h.term n) = some r ∧ r.who = n

/-- What the state of a node stands for. The match indexes of a leader are
acknowledgements of its term. -/
def RoleInv (M : Mode) (h : History Nat Entry) (n : Nat) (peers : List Nat) (state : State)
    (voteMask : Word) (matchIndex : Nat → Nat) : Prop :=
  match state with
  | .follower => True
  | .candidate =>
    h.cand n (h.term n) = some (h.log n, h.commit n) ∧ ¬ Reigns h n ∧
      ∀ id, Member voteMask id → h.vote id (h.term n) = some n
  | .leader =>
    Reigns h n ∧ (h.log n).length ≤ h.ack n (h.term n) ∧
      (M.acks → ∀ p ∈ peers, matchIndex p ≤ h.ack p (h.term n))

/-- What is known of the active read barrier. -/
structure ReadInv (h : History Nat Entry) (n : Nat) (state : State) (context mask : Word)
    (index : Nat) (ready : Bool) : Prop where
  leads : ready = true → state = .leader
  le : ready = true → index ≤ h.commit n
  barrier : K.fresh → context ≠ 0 → ∃ h₀, K.started n context = some h₀ ∧
    (∃ r, h.lead (h₀.term n) = some r ∧ r.who = n) ∧
    (h₀.term n = h.term n →
      (∀ t i, h₀.chosen t i → t ≤ h₀.term n → i ≤ h.commit n) ∧
      ∀ p, Member mask p → h₀.term p ≤ h₀.term n) ∧
    (ready = true → ∀ t i, h₀.chosen t i → i ≤ index)

/-- What the store of a node holds. -/
structure Dur (h : History Nat Entry) (n : Nat) (d : Durable) : Prop where
  voted : Voted h n d.hard.term d.hard.votedFor
  view : View K.voters (h.log n) d.base d.data
  commit_eq : h.commit n = max d.hard.commit d.base
  base_le : d.base ≤ d.snapshot.lastIndex
  snapshot : d.snapshot = {} ∨ OwnFact K h n d.snapshot
  single : K.neat → Single K (h.log n) (h.commit n)
  reach : K.reach → d.snapshot.lastIndex ≤ (h.log n).length

/-- The store is settled at the node's base and snapshot. -/
def Synced (base : Nat) (snapshot : Snapshot) (d : Durable) : Prop :=
  base = d.base ∧ snapshot = d.snapshot ∧ d.base = d.snapshot.lastIndex

/-- A running node whose voters are those after `j` entries. -/
structure LiveAt (n : Nat) (M : Mode) (j : Nat) (h : History Nat Entry) (s : Node σ) :
    Prop where
  running : s.faulted = false
  named : Named K n s.id s.peers
  voted : Voted h n s.term s.votedFor
  logged : Logged K (h.log n) (h.commit n) s.log s.baseIndex s.baseTerm s.commit s.applied
  configured : Configured K M (h.log n) j s.votersOld s.votersNew s.pendingConfig
  single : K.tidy → M.single → Single K (h.log n) (h.commit n)
  role : RoleInv M h n s.peers s.state s.voteMask s.matchIndex
  read : ReadInv K h n s.state s.readContext s.readAckMask s.readIndex s.readReady
  out : ∀ m ∈ s.outbound, MsgInv K h m
  dur : Dur K h n (LawfulStore.durable s.store)
  synced : Synced s.baseIndex s.snapshot (LawfulStore.durable s.store)

/-- A running node. -/
def Live (n : Nat) (M : Mode) (h : History Nat Entry) (s : Node σ) : Prop :=
  LiveAt K n M s.commit h s

/-- What a node has committed stays committed, whatever happened to it. -/
def Past (h : History Nat Entry) (n : Nat) (log : List Entry) (base commit applied : Nat) : Prop :=
  ∃ x, View K.voters x base log ∧ h.Sound K.P x ∧ base ≤ applied ∧ applied ≤ commit ∧
    commit ≤ x.length ∧ h.Committed (h.term n) (x.take commit)

/-- The voters of a node are those of what it has committed, and a snapshot covers
what it has discarded. -/
def Settled (h : History Nat Entry) (n : Nat) (log : List Entry) (base commit applied : Nat)
    (old new : Word) (covered : Nat) : Prop :=
  base ≤ covered ∧ ∃ x, View K.voters x base log ∧ h.Sound K.P x ∧ base ≤ applied ∧
    applied ≤ commit ∧ commit ≤ x.length ∧ h.Committed (h.term n) (x.take commit) ∧
    configAfter K.voters (x.take commit) = (old, new)

/-- `Settled` for the fields of a node. -/
abbrev Node.Settled (s : Node σ) (h : History Nat Entry) (n : Nat) : Prop :=
  Raft.Settled K h n s.log s.baseIndex s.commit s.applied s.votersOld s.votersNew
    (LawfulStore.durable s.store).snapshot.lastIndex

/-- A node that panicked. -/
structure Down (n : Nat) (h : History Nat Entry) (s : Node σ) : Prop where
  own : s.id = n ∧ Member K.voters n
  past : Past K h n s.log s.baseIndex s.commit s.applied
  commit_le : s.commit ≤ h.commit n
  running : K.reliable → s.faulted = false
  dur : Dur K h n (LawfulStore.durable s.store)

/-- A node that was stopped by its store. -/
structure Dead (n : Nat) (h : History Nat Entry) (s : Node σ) : Prop extends Down K n h s where
  stopped : s.faulted = true
  state_eq : s.state = .follower
  silent : s.outbound = []
  unreliable : ¬ K.reliable
  settled : K.Traced → s.Settled K h n

/-- A node between two operations. -/
def Good (n : Nat) (h : History Nat Entry) (s : Node σ) : Prop :=
  Live K n .full h s ∨ Dead K n h s

end Promtact.Raft
