import Promtact.Raft.Emission

/-!
# One node, whatever it is sent

The simulation relates nodes to a history, and it needs that messages are genuine.
Some facts about a node do not depend on that: they are kept by every operation, with
any message. `Local` collects them. Which of them are asked for is said by a `Watch`,
since each needs its own conditions on the operations:

* `settled`: the base, the applied and the commit index are in order and inside the log;
* `pend`: the pending index is the one of the last change of voters behind the commit
  index;
* `known`: every voter is a peer;
* `keep`: entries that are not applied stay in the log;
* `total`: the only panic is the one of a full outbound queue.

A node that loses its store is `Stopped`; what it still holds is not looked at.
-/

namespace Promtact.Raft

open GhostState
open Function (update)
open Node (indexes)

variable {σ α : Type}

/-! ## What is kept -/

structure Watch where
  settled : Prop := False
  pend : Prop := False
  known : Prop := False
  keep : Nat → Entry → Prop := fun _ _ => False
  total : Prop := False
  pend_settled : pend → settled := by exact False.elim
  total_settled : total → settled := by exact False.elim

namespace Node

/-- The entry at the index changes the voters. -/
def ConfigAt (s : Node σ) (i : Nat) : Prop := ∃ e, s.entryAt? i = some e ∧ e.isConfig = true

/-- The pending index is the last one in `(k, last]` with a change of voters, and zero
when there is none. -/
def Tracks (s : Node σ) (k last : Nat) : Prop :=
  (s.pendingConfig = 0 ∧ ∀ i, k < i → i ≤ last → ¬ s.ConfigAt i) ∨
  (k < s.pendingConfig ∧ s.pendingConfig ≤ last ∧ s.ConfigAt s.pendingConfig ∧
    ∀ i, s.pendingConfig < i → i ≤ last → ¬ s.ConfigAt i)

/-- The nodes of the mask are this node and peers of it. -/
def Knows (s : Node σ) (mask : Word) : Prop := ∀ id, Member mask id → id = s.id ∨ id ∈ s.peers

/-- What the facts are about. -/
def core (s : Node σ) : Nat × List Nat × List Entry × Nat × Nat × Nat × Word × Word × Nat × Bool :=
  (s.id, s.peers, s.log, s.baseIndex, s.commit, s.applied, s.votersOld, s.votersNew,
    s.pendingConfig, s.faulted)

/-- A store call of the node failed. -/
structure Stopped (s : Node σ) : Prop where
  faulted : s.faulted = true
  error : s.storageErr ≠ none
  follows : s.state = .follower
  silent : s.outbound = []

end Node

theorem stopped_failed (s : Node σ) (store : σ) (err : StoreError) : (failed s store err).Stopped :=
  ⟨rfl, Option.some_ne_none err, rfl, rfl⟩

/-- Everything but the pending index. -/
structure Body (W : Watch) (s : Node σ) : Prop where
  running : s.faulted = false
  log_ne : s.log ≠ []
  own : 0 < s.id ∧ s.id ≤ 64
  tame : Tame s
  bounds : W.settled → s.baseIndex ≤ s.applied ∧ s.applied ≤ s.commit ∧ s.commit ≤ s.lastIndex
  voters : W.known → s.Knows (s.votersOld ||| s.votersNew)
  entries : W.known → ∀ e ∈ s.log, e.isConfig = true → s.Knows (e.oldVoters ||| e.newVoters)
  kept : ∀ i e, W.keep i e → s.applied < i ∧ s.entryAt? i = some e

structure Local (W : Watch) (s : Node σ) : Prop extends Body W s where
  pending : W.pend → s.Tracks s.commit s.lastIndex

def Safe (W : Watch) (s : Node σ) : Prop := s.Stopped ∨ Local W s

variable {W : Watch} {s s' : Node σ}

theorem Safe.of_running (hs : Safe W s) (hrunning : s.faulted = false) : Local W s :=
  hs.resolve_left fun h => Bool.false_ne_true (hrunning.symm.trans h.faulted)

theorem Body.of_core (hb : Body W s) (hcore : s'.core = s.core) : Body W s' := by
  cases s
  cases s'
  simp only [Node.core, Prod.mk.injEq] at hcore
  obtain ⟨rfl, rfl, rfl, rfl, rfl, rfl, rfl, rfl, rfl, rfl⟩ := hcore
  exact { hb with }

theorem Local.of_core (hl : Local W s) (hcore : s'.core = s.core) : Local W s' := by
  refine { toBody := hl.toBody.of_core hcore, pending := fun hp => ?_ }
  have hpending := hl.pending hp
  cases s
  cases s'
  simp only [Node.core, Prod.mk.injEq] at hcore
  obtain ⟨rfl, rfl, rfl, rfl, rfl, rfl, rfl, rfl, rfl, rfl⟩ := hcore
  exact hpending

theorem Sends.core (h : Sends s s') : s'.core = s.core := by
  obtain ⟨_, _, rfl⟩ := h
  rfl

/-! ## Reading -/

theorem entryAt?_inLog {i : Nat} {e : Entry} (he : s.entryAt? i = some e) :
    s.baseIndex ≤ i ∧ i ≤ s.lastIndex ∧ e ∈ s.log := by
  unfold Node.entryAt? Node.offset at he
  by_cases hout : i < s.baseIndex ∨ i > s.lastIndex
  · rw [if_pos hout] at he
    cases he
  · rw [if_neg hout] at he
    exact ⟨by omega, by omega, List.mem_of_getElem? he⟩

theorem entryAt_eq_ok {i : Nat} {e : Entry} : s.entryAt i = .ok e ↔ s.entryAt? i = some e := by
  unfold Node.entryAt
  cases s.entryAt? i with
  | none => exact ⟨(nomatch ·), (nomatch ·)⟩
  | some e' => exact ⟨fun h => by cases h; rfl, fun h => by cases h; rfl⟩

theorem termAtMust_ok {i : Nat} (hlo : s.baseIndex ≤ i) (hhi : i ≤ s.lastIndex) (hlog : s.log ≠ []) :
    ∃ t, s.termAtMust i = .ok t := by
  obtain ⟨e, he⟩ := entryAt_ok hlo hhi hlog
  refine ⟨e.term, ?_⟩
  unfold Node.termAtMust Node.termAt
  rw [entryAt_eq_ok.mp he]
  rfl

theorem overrideVoters_ok (l : List Nat) (hl : ∀ i ∈ l, s.baseIndex ≤ i ∧ i ≤ s.lastIndex)
    (hlog : s.log ≠ []) (c : Word × Word) : ∃ c', l.foldlM s.overrideVoters c = .ok c' := by
  induction l generalizing c with
  | nil => exact ⟨c, rfl⟩
  | cons i l ih =>
    obtain ⟨hlo, hhi⟩ := hl i List.mem_cons_self
    obtain ⟨e, he⟩ := entryAt_ok hlo hhi hlog
    rw [List.foldlM_cons]
    refine bind_ok (x := if e.kind = .jointConfig then (e.oldVoters, e.newVoters) else c) ?_ ?_
    · unfold Node.overrideVoters
      rw [he]
      rfl
    · exact ih (fun j hj => hl j (List.mem_cons_of_mem i hj)) _

theorem effectiveVoters_ok (hlog : s.log ≠ []) : ∃ c, s.effectiveVoters = .ok c := by
  refine overrideVoters_ok _ (fun i hi => ?_) hlog _
  have := mem_indexes.mp hi
  omega

theorem quorumMask_ok (hlog : s.log ≠ []) (mask : Word) : ∃ b, s.quorumMask mask = .ok b := by
  obtain ⟨c, hc⟩ := effectiveVoters_ok hlog
  exact ⟨Node.jointMajority c mask, bind_eq_ok.mpr ⟨c, hc, rfl⟩⟩

theorem isVoter_ok (hlog : s.log ≠ []) {id : Nat} (hid : 0 < id ∧ id ≤ 64) :
    ∃ b, s.isVoter id = .ok b := by
  obtain ⟨c, hc⟩ := effectiveVoters_ok hlog
  exact ⟨_, bind_eq_ok.mpr ⟨c, hc, bind_eq_ok.mpr ⟨_, nodeBit_of_range hid.1 hid.2, rfl⟩⟩⟩

/-- The search for a committable index stays inside the log. -/
theorem Body.committable_ok (hb : Body W s) (hset : W.settled) {k : Nat} (hk : k ≤ s.lastIndex) :
    ∃ found, s.committable k = .ok found := by
  obtain ⟨hbase, happlied, _⟩ := hb.bounds hset
  induction k with
  | zero => exact ⟨none, rfl⟩
  | succ k ih =>
    rw [Node.committable]
    split
    · exact ⟨none, rfl⟩
    rename_i hlt
    obtain ⟨t, hterm⟩ := termAtMust_ok (s := s) (i := k + 1) (by omega) hk hb.log_ne
    refine bind_ok hterm ?_
    split
    · exact ih (by omega)
    obtain ⟨acked, hacked⟩ := acked_ok (s := s) (i := k + 1) hb.tame.2 (bitOf s.id)
    obtain ⟨c, hc⟩ := overrideVoters_ok (s := s) (indexes (s.commit + 1) (k + 1)) (fun i hi => by
      have := mem_indexes.mp hi
      omega) hb.log_ne (s.votersOld, s.votersNew)
    refine bind_ok (nodeBit_of_range hb.own.1 hb.own.2) (bind_ok hacked (bind_ok
      (bind_eq_ok.mpr ⟨c, hc, rfl⟩) ?_))
    split
    · exact ⟨_, rfl⟩
    · exact ih (by omega)

/-! ## Programs -/

/-- Running a program from a state. Where that is asked for, it only panics when the outbound
queue is full. -/
def LWp (W : Watch) (f : NodeM σ α) (Q : α → Node σ → Prop) (s : Node σ) : Prop :=
  Wp (fun _ _ : Unit => True) (fun _ _ s => W.total → s.outbound.length = outboundCapacity) f
    (fun a _ => Q a) () s

instance unit_preorder : IsPreorder Unit fun _ _ => True where
  refl _ := trivial
  trans _ _ _ _ _ := trivial

namespace LWp

variable {β ι : Type} {f f' : NodeM σ α} {Q Q' : α → Node σ → Prop} {a : α}

theorem of_ok (hf : f s = .ok a s') (hq : Q a s') : LWp W f Q s := by
  unfold LWp Wp
  rw [hf]
  exact ⟨(), trivial, hq⟩

/-- A program that panics, where that is not ruled out. -/
theorem of_error {e : Panic} (hf : f s = .error e s') (ht : ¬ W.total) : LWp W f Q s := by
  unfold LWp Wp
  rw [hf]
  exact ⟨(), trivial, fun h => absurd h ht⟩

/-- A program whose last state is known, where panics are not ruled out. -/
theorem of_final {P : Node σ → Prop} (hf : finalState (f s) = s') (ht : ¬ W.total) (hq : P s') :
    LWp W f (fun _ => P) s := by
  cases hrun : f s with
  | ok a t =>
    rw [hrun] at hf
    cases hf
    exact of_ok hrun hq
  | error e t => exact of_error hrun ht

/-- A program that keeps to an effect, where panics are not ruled out. -/
theorem of_within {R : Nat → Node σ → Node σ → Prop} {k : Nat} (hf : Within R k f s)
    (ht : ¬ W.total) (hq : ∀ a s', R k s s' → Q a s') : LWp W f Q s := by
  cases hrun : f s with
  | ok a s' => exact of_ok hrun (hq a s' (hf.elim hrun))
  | error e s' => exact of_error hrun ht

theorem elim (hw : LWp W f Q s) (hf : f s = .ok a s') : Q a s' := by
  obtain ⟨_, _, hq⟩ := Wp.elim_ok hw hf
  exact hq

/-- A program that starts with few messages does not panic. -/
theorem total {k : Nat} (hw : LWp W f Q s) (ht : W.total) (he : Emits k f) (hs : Tame s)
    (hroom : s.outbound.length + k < outboundCapacity) : ∃ a s', f s = .ok a s' ∧ Q a s' := by
  have hcount := he s hs
  cases hrun : f s with
  | ok a s' => exact ⟨a, s', rfl, hw.elim hrun⟩
  | error e s' =>
    rw [hrun] at hcount
    obtain ⟨_, _, hfull⟩ := Wp.elim_error hw hrun
    have := hfull ht
    replace hcount : s'.outbound.length ≤ s.outbound.length + k := hcount
    omega

theorem mono (hw : LWp W f Q s) (hq : ∀ a s', Q a s' → Q' a s') : LWp W f Q' s :=
  Wp.mono hw fun a _ s' => hq a s'

theorem bind {k : α → NodeM σ β} {Q : β → Node σ → Prop}
    (hw : LWp W f (fun a => LWp W (k a) Q) s) : LWp W (f >>= k) Q s := Wp.bind hw

theorem ite {c : Prop} [Decidable c] (ht : c → LWp W f Q s) (he : ¬ c → LWp W f' Q s) :
    LWp W (if c then f else f') Q s := Wp.ite ht he

theorem of_pure (hq : Q a s) : LWp W (pure a) Q s := Wp.of_pure hq

theorem map {I : Node σ → Prop} (g : α → β) (hw : LWp W f (fun _ => I) s) :
    LWp W (do return g (← f)) (fun _ => I) s := bind (hw.mono fun _ _ h => of_pure h)

theorem of_get {Q : Node σ → Node σ → Prop} (hq : Q s s) : LWp W get Q s := Wp.of_get hq

theorem of_modify {Q : PUnit → Node σ → Prop} {u : Node σ → Node σ} (hq : Q ⟨⟩ (u s)) :
    LWp W (modify u) Q s := Wp.of_modify hq

theorem forM {k : ι → NodeM σ PUnit} {I : Node σ → Prop} {l : List ι}
    (hk : ∀ i ∈ l, ∀ s, I s → LWp W (k i) (fun _ => I) s) (hI : I s) :
    LWp W (l.forM k) (fun _ => I) s := Wp.forM (I := fun _ => I) (fun i hi _ s => hk i hi s) hI

theorem forM_range {k : Nat → NodeM σ PUnit} {I : Nat → Node σ → Prop} {first count : Nat}
    (hk : ∀ i, first ≤ i → i < first + count → ∀ s, I i s → LWp W (k i) (fun _ => I (i + 1)) s)
    (hI : I first s) :
    LWp W ((List.range' first count).forM k) (fun _ => I (first + count)) s :=
  Wp.forM_range (I := fun i _ => I i) (fun i hi hi' _ s => hk i hi hi' s) hI

theorem foldlM_range {k : β → Nat → NodeM σ β} {I : Nat → Node σ → Prop} {first count : Nat} {b : β}
    (hk : ∀ i, first ≤ i → i < first + count → ∀ b s, I i s →
      LWp W (k b i) (fun _ => I (i + 1)) s) (hI : I first s) :
    LWp W ((List.range' first count).foldlM k b) (fun _ => I (first + count)) s :=
  Wp.foldlM_range (I := fun i _ _ => I i) (fun i hi hi' b _ s => hk i hi hi' b s) hI

end LWp

variable {Q : α → Node σ → Prop} {m : Message}

theorem lwp_iff {f : NodeM σ α} : LWp {} f Q s ↔ ∀ a s', f s = .ok a s' → Q a s' := by
  refine ⟨fun hw _ _ hf => hw.elim hf, fun hq => ?_⟩
  cases hf : f s with
  | ok a s' => exact LWp.of_ok hf (hq a s' hf)
  | error e s' => exact LWp.of_error hf id

theorem lwp_ask {q : Node σ → Except Panic α} (hok : W.total → ∃ a, q s = .ok a)
    (hq : ∀ a, q s = .ok a → Q a s) : LWp W (ask q) Q s := by
  cases hrun : q s with
  | ok a => exact LWp.of_ok (by simp only [ask, hrun]) (hq a hrun)
  | error e =>
    have hask : ask q s = .error e s := by simp only [ask, hrun]
    unfold LWp Wp
    rw [hask]
    refine ⟨(), trivial, fun ht => ?_⟩
    obtain ⟨a, ha⟩ := hok ht
    rw [hrun] at ha
    cases ha

/-- A call of the store. -/
theorem lwp_call {Q : Bool → Node σ → Prop} {call : σ → Option StoreError × σ}
    (hok : (call s.store).1 = none → Q true { s with store := (call s.store).2 })
    (hfailed : ∀ s' : Node σ, s'.Stopped → Q false s') : LWp W (tryStore call) Q s := by
  cases hc : (call s.store).1 with
  | none => exact LWp.of_ok (tryStore_ok hc) (hok hc)
  | some err => exact LWp.of_ok (tryStore_error hc) (hfailed _ (stopped_failed ..))

theorem lwp_tryStore {Q : Bool → Node σ → Prop} {call : σ → Option StoreError × σ}
    (hok : ∀ store, Q true { s with store := store })
    (hfailed : ∀ s' : Node σ, s'.Stopped → Q false s') : LWp W (tryStore call) Q s :=
  lwp_call (fun _ => hok _) hfailed

theorem lwp_failStorage {Q : Unit → Node σ → Prop} (hq : ∀ s' : Node σ, s'.Stopped → Q ⟨⟩ s') :
    LWp W failStorage Q s :=
  LWp.of_modify (hq _ ⟨rfl, Option.some_ne_none _, rfl, rfl⟩)

theorem lwp_send {Q : Unit → Node σ → Prop} (hq : ∀ s', Sends s s' → Q ⟨⟩ s') :
    LWp W (send m) Q s := by
  refine LWp.bind (LWp.of_get (LWp.ite (fun hfull => ?_) fun _ => ?_))
  · exact Wp.of_throw fun _ => hfull
  · exact LWp.of_ok rfl (hq _ ⟨_, _, rfl⟩)

theorem lwp_appendToContext {Q : Unit → Node σ → Prop} {p : Nat} {context : Word}
    (hlog : s.log ≠ []) (hq : ∀ s', Sends s s' → Q ⟨⟩ s') :
    LWp W (appendToContext p context) Q s := by
  refine LWp.bind (LWp.of_get (LWp.ite (fun _ => lwp_send hq) fun hnext => ?_))
  refine LWp.bind (LWp.of_modify (LWp.bind (LWp.of_get ?_)))
  have hpos := List.length_pos_iff.mpr hlog
  have hlast : s.baseIndex ≤ s.lastIndex := by
    unfold Node.lastIndex
    omega
  -- the adjusted next index
  obtain ⟨next, hs₁, hlo, hhi⟩ : ∃ next, (if s.next p > s.lastIndex + 1 then
      { s with next := update s.next p (s.lastIndex + 1) } else s) = { s with next := next } ∧
      s.baseIndex < next p ∧ next p ≤ s.lastIndex + 1 := by
    split
    · exact ⟨_, rfl, by simp; omega, by simp⟩
    · exact ⟨s.next, rfl, by omega, by omega⟩
  rw [hs₁]
  have hsends : Sends s { s with next := next } := ⟨_, _, rfl⟩
  have hzero : ¬ next p = 0 := by omega
  simp only [if_neg hzero]
  refine LWp.bind (lwp_ask (fun _ => termAtMust_ok (s := { s with next := next }) ?_ ?_ hlog) fun _ _ =>
       LWp.ite (fun hin => ?_) fun _ => lwp_send fun s' hs' => hq s' (hsends.trans hs'))
  · exact Nat.le_sub_one_of_lt hlo
  · exact Nat.sub_le_of_le_add hhi
  · exact LWp.bind (lwp_ask (fun _ => entryAt_ok (n := { s with next := next }) (Nat.le_of_lt hlo)
      (Nat.le_of_lt_succ hin) hlog) fun _ _ => lwp_send fun s' hs' => hq s' (hsends.trans hs'))

/-- A loop of sends. -/
theorem lwp_peers {Q : Unit → Node σ → Prop} {k : Nat → NodeM σ Unit} {l : List Nat}
    (hk : ∀ p ∈ l, ∀ s', Sends s s' → LWp W (k p) (fun _ => Sends s) s')
    (hq : ∀ s', Sends s s' → Q ⟨⟩ s') : LWp W (l.forM k) Q s :=
  (LWp.forM hk (Sends.refl s)).mono fun _ => hq

theorem lwp_broadcastAppend {Q : Unit → Node σ → Prop} (hb : Body W s)
    (hq : ∀ s', Sends s s' → Q ⟨⟩ s') : LWp W broadcastAppend Q s := by
  refine LWp.bind (LWp.of_get (lwp_peers (fun p hp s' hs' => ?_) hq))
  have hb' := hb.of_core hs'.core
  refine LWp.bind (lwp_ask (fun _ => isVoter_ok hb'.log_ne (hb.tame.2 p hp)) fun _ _ =>
    LWp.ite (fun _ => ?_) fun _ => LWp.of_pure hs')
  exact lwp_appendToContext hb'.log_ne fun s'' hs'' => hs'.trans hs''

/-- A round of requests for votes. -/
theorem lwp_canvass {Q : Unit → Node σ → Prop} (hb : Body W s) (request : Nat → Nat → Message)
    (hq : ∀ s', Sends s s' → Q ⟨⟩ s') : LWp W (s.peers.forM fun p => do
      let lastTerm ← ask (·.termAtMust s.lastIndex)
      send (request p lastTerm)) Q s := by
  refine lwp_peers (fun p hp s' hs' => ?_) hq
  refine LWp.bind (lwp_ask (fun _ => ?_) fun _ _ => lwp_send fun s'' hs'' => hs'.trans hs'')
  obtain ⟨_, _, rfl⟩ := hs'
  have hpos := List.length_pos_iff.mpr hb.log_ne
  refine termAtMust_ok ?_ (Nat.le_refl _) hb.log_ne
  show s.baseIndex ≤ s.baseIndex + s.log.length - 1
  omega

/-! ## Peers -/

theorem ensurePeers_core (mask : Word) (s : Node σ) :
    (s.ensurePeers mask).core = { s with peers := (s.ensurePeers mask).peers }.core := by
  unfold Node.core
  simp only [ensurePeers_frame Node.id (fun _ _ _ _ => rfl),
    ensurePeers_frame Node.log (fun _ _ _ _ => rfl),
    ensurePeers_frame Node.baseIndex (fun _ _ _ _ => rfl),
    ensurePeers_frame Node.commit (fun _ _ _ _ => rfl),
    ensurePeers_frame Node.applied (fun _ _ _ _ => rfl),
    ensurePeers_frame Node.votersOld (fun _ _ _ _ => rfl),
    ensurePeers_frame Node.votersNew (fun _ _ _ _ => rfl),
    ensurePeers_frame Node.pendingConfig (fun _ _ _ _ => rfl),
    ensurePeers_frame Node.faulted (fun _ _ _ _ => rfl)]

/-- Afterwards the nodes of the mask are peers, and no peer is lost. -/
theorem ensurePeers_knows (mask : Word) (s : Node σ) :
    (∀ p ∈ s.peers, p ∈ (s.ensurePeers mask).peers) ∧ (s.ensurePeers mask).Knows mask := by
  have hid : (s.ensurePeers mask).id = s.id := ensurePeers_frame Node.id (fun _ _ _ _ => rfl) mask s
  -- the IDs that the loop has passed
  have hloop : ∀ (l : List Nat) (t : Node σ), t.id = s.id → (∀ id ∈ l, 0 < id ∧ id ≤ 64) →
      (∀ p ∈ t.peers, p ∈ (l.foldl (Node.ensurePeer mask) t).peers) ∧
      ∀ id ∈ l, Member mask id → id = s.id ∨ id ∈ (l.foldl (Node.ensurePeer mask) t).peers := by
    intro l
    induction l with
    | nil => exact fun t _ _ => ⟨fun _ hp => hp, fun _ hid => absurd hid List.not_mem_nil⟩
    | cons next l ih =>
      intro t ht hl
      obtain ⟨h0, h64⟩ := hl next List.mem_cons_self
      have hround : (t.ensurePeer mask next).id = s.id ∧
          (∀ p ∈ t.peers, p ∈ (t.ensurePeer mask next).peers) ∧
          (Member mask next → next = s.id ∨ next ∈ (t.ensurePeer mask next).peers) := by
        unfold Node.ensurePeer
        split
        · rename_i hskip
          refine ⟨ht, fun _ hp => hp, fun hm => ?_⟩
          rcases hskip with hown | hzero | hin
          · exact Or.inl (hown.trans ht)
          · exact absurd hzero ((and_bitOf_ne_zero h0 h64).mpr hm)
          · exact Or.inr hin
        · exact ⟨ht, fun _ hp => List.mem_append_left _ hp, fun _ => Or.inr (by simp)⟩
      obtain ⟨hkept, hall⟩ := ih _ hround.1 fun id hid => hl id (List.mem_cons_of_mem next hid)
      refine ⟨fun p hp => hkept p (hround.2.1 p hp), fun id hid hm => ?_⟩
      rcases List.mem_cons.mp hid with rfl | hid
      · exact (hround.2.2 hm).imp_right (hkept id)
      · exact hall id hid hm
  obtain ⟨hkept, hall⟩ := hloop (indexes 1 64) s rfl fun id hid => mem_indexes.mp hid
  refine ⟨hkept, fun id hm => ?_⟩
  rw [hid]
  exact hall id (mem_indexes.mpr ⟨hm.1, hm.2.1⟩) hm

theorem Node.Knows.mono {mask : Word} (hk : s.Knows mask) (hid : s'.id = s.id)
    (hpeers : ∀ p ∈ s.peers, p ∈ s'.peers) : s'.Knows mask := fun id hm => by
  rw [hid]
  exact (hk id hm).imp_right (hpeers id)

theorem Node.Knows.of_or {v w : Word} (hk : s.Knows (v ||| w)) : s.Knows v ∧ s.Knows w :=
  ⟨fun id hm => hk id (member_or.mpr (Or.inl hm)), fun id hm => hk id (member_or.mpr (Or.inr hm))⟩

theorem Node.Knows.or {v w : Word} (hv : s.Knows v) (hw : s.Knows w) : s.Knows (v ||| w) :=
  fun id hm => (member_or.mp hm).elim (hv id) (hw id)

theorem Node.Knows.zero : s.Knows 0 := fun _ hm => absurd rfl (member_ne_zero hm)

/-- More peers change nothing else. -/
theorem Body.ensurePeers (hb : Body W s) (mask : Word) : Body W (s.ensurePeers mask) := by
  obtain ⟨hkept, _⟩ := ensurePeers_knows mask s
  have htame := hb.tame.ensurePeers mask
  have hcore := ensurePeers_core mask s
  generalize s.ensurePeers mask = t at hkept htame hcore ⊢
  have hb' : Body W { s with peers := t.peers } := { hb with
    tame := htame
    voters := fun hk => (hb.voters hk).mono rfl hkept
    entries := fun hk e he hc => (hb.entries hk e he hc).mono rfl hkept }
  exact hb'.of_core hcore

/-! ## Changes of voters -/

/-- What the pending index is about. -/
theorem Node.Tracks.of_same {k last : Nat} (ht : s.Tracks k last)
    (hpending : s'.pendingConfig = s.pendingConfig)
    (hlog : ∀ i, k < i → i ≤ last → (s'.ConfigAt i ↔ s.ConfigAt i)) : s'.Tracks k last := by
  unfold Node.Tracks
  rw [hpending]
  rcases ht with ⟨hzero, hno⟩ | ⟨hlo, hhi, hat, hno⟩
  · exact Or.inl ⟨hzero, fun i hi hi' hc => hno i hi hi' ((hlog i hi hi').mp hc)⟩
  · exact Or.inr ⟨hlo, hhi, (hlog _ hlo hhi).mpr hat, fun i hi hi' hc =>
      hno i hi hi' ((hlog i (by omega) hi').mp hc)⟩

/-- The lower end moves over one entry, and the pending index is cleared when it is the
one of that entry. -/
theorem Node.Tracks.pass {i last : Nat} (ht : s.Tracks i last) :
    (if i + 1 = s.pendingConfig then { s with pendingConfig := 0 } else s).Tracks (i + 1) last := by
  rcases ht with ⟨hzero, hno⟩ | ⟨hlo, hhi, hat, hno⟩
  · rw [if_neg (by omega)]
    exact Or.inl ⟨hzero, fun j hj => hno j (by omega)⟩
  · split
    · rename_i heq
      exact Or.inl ⟨rfl, fun j hj hj' => hno j (by omega) hj'⟩
    · exact Or.inr ⟨by omega, hhi, hat, hno⟩

/-- The upper end moves over one entry that changes no voters. -/
theorem Node.Tracks.extend {k last : Nat} (ht : s.Tracks k last) (hno : ¬ s.ConfigAt (last + 1)) :
    s.Tracks k (last + 1) := by
  rcases ht with ⟨hzero, hall⟩ | ⟨hlo, hhi, hat, hall⟩
  · refine Or.inl ⟨hzero, fun i hi hi' => ?_⟩
    rcases Nat.lt_or_ge last i with hlt | hle
    · rwa [show i = last + 1 by omega]
    · exact hall i hi hle
  · refine Or.inr ⟨hlo, by omega, hat, fun i hi hi' => ?_⟩
    rcases Nat.lt_or_ge last i with hlt | hle
    · rwa [show i = last + 1 by omega]
    · exact hall i hi hle

theorem Node.Tracks.refl {k : Nat} (hzero : s.pendingConfig = 0) : s.Tracks k k :=
  Or.inl ⟨hzero, fun i hi hi' => by omega⟩

theorem Node.ConfigAt.congr {i : Nat} (hlog : s'.log = s.log) (hbase : s'.baseIndex = s.baseIndex) :
    s'.ConfigAt i ↔ s.ConfigAt i := by
  unfold Node.ConfigAt Node.entryAt? Node.offset Node.lastIndex
  rw [hlog, hbase]

/-- What a round of the loop over committed entries leaves alone. -/
def SameLog (s s' : Node σ) : Prop :=
  s'.log = s.log ∧ s'.baseIndex = s.baseIndex ∧ s'.commit = s.commit ∧ s'.applied = s.applied

theorem SameLog.refl (s : Node σ) : SameLog s s := ⟨rfl, rfl, rfl, rfl⟩

theorem SameLog.trans {s'' : Node σ} (h : SameLog s s') (h' : SameLog s' s'') : SameLog s s'' :=
  ⟨h'.1.trans h.1, h'.2.1.trans h.2.1, h'.2.2.1.trans h.2.2.1, h'.2.2.2.trans h.2.2.2⟩

theorem SameLog.ensurePeers (mask : Word) (s : Node σ) : SameLog s (s.ensurePeers mask) :=
  ⟨ensurePeers_frame Node.log (fun _ _ _ _ => rfl) mask s,
    ensurePeers_frame Node.baseIndex (fun _ _ _ _ => rfl) mask s,
    ensurePeers_frame Node.commit (fun _ _ _ _ => rfl) mask s,
    ensurePeers_frame Node.applied (fun _ _ _ _ => rfl) mask s⟩

theorem ensurePeers_pendingConfig (mask : Word) (s : Node σ) :
    (s.ensurePeers mask).pendingConfig = s.pendingConfig :=
  ensurePeers_frame Node.pendingConfig (fun _ _ _ _ => rfl) mask s

/-- An entry of the log changes the voters. -/
theorem lwp_installConfiguration {Q : Unit → Node σ → Prop} {e : Entry} (hb : Body W s)
    (he : e ∈ s.log) (hq : ∀ s', Body W s' → SameLog s s' → s'.pendingConfig = s.pendingConfig →
      Q ⟨⟩ s') : LWp W (installConfiguration e) Q s := by
  unfold installConfiguration
  cases hkind : e.kind with
  | jointConfig =>
    have hb' : Body W { s with votersOld := e.oldVoters, votersNew := e.newVoters } := { hb with
      voters := fun hk => hb.entries hk e he (isConfig_iff.mpr (Or.inl hkind)) }
    refine LWp.bind (LWp.of_modify (LWp.of_modify ?_))
    have hb'' := hb'.ensurePeers (e.oldVoters ||| e.newVoters)
    have hsame := SameLog.ensurePeers (e.oldVoters ||| e.newVoters)
      { s with votersOld := e.oldVoters, votersNew := e.newVoters }
    have hpending := ensurePeers_pendingConfig (e.oldVoters ||| e.newVoters)
      { s with votersOld := e.oldVoters, votersNew := e.newVoters }
    generalize Node.ensurePeers _ _ = t at hb'' hsame hpending ⊢
    exact hq t hb'' hsame hpending
  | finalConfig =>
    have hb' : Body W { s with votersOld := e.oldVoters, votersNew := 0 } := { hb with
      voters := fun hk =>
        (hb.entries hk e he (isConfig_iff.mpr (Or.inr hkind))).of_or.1.or Node.Knows.zero }
    refine LWp.bind (LWp.of_modify (LWp.bind (lwp_ask (fun _ => isVoter_ok hb'.log_ne hb'.own)
      fun _ _ => LWp.ite (fun _ => LWp.of_modify ?_) fun _ => LWp.of_pure ?_)))
    · exact hq _ { hb' with } ⟨rfl, rfl, rfl, rfl⟩ rfl
    · exact hq _ hb' ⟨rfl, rfl, rfl, rfl⟩ rfl
  | normal => exact LWp.of_pure (hq s hb (SameLog.refl s) rfl)
  | noop => exact LWp.of_pure (hq s hb (SameLog.refl s) rfl)
  | other c => exact LWp.of_pure (hq s hb (SameLog.refl s) rfl)

theorem lwp_applyCommittedConfiguration {Q : Unit → Node σ → Prop} {i : Nat} (hb : Body W s)
    (hin : W.total → s.baseIndex ≤ i + 1 ∧ i + 1 ≤ s.lastIndex)
    (hpend : W.pend → s.Tracks i s.lastIndex)
    (hq : ∀ s', Body W s' → SameLog s s' → (W.pend → s'.Tracks (i + 1) s'.lastIndex) → Q ⟨⟩ s') :
    LWp W (applyCommittedConfiguration (i + 1)) Q s := by
  refine LWp.bind (lwp_ask (fun ht => entryAt_ok (hin ht).1 (hin ht).2 hb.log_ne) fun e he => ?_)
  have hmem := (entryAt?_inLog (entryAt_eq_ok.mp he)).2.2
  refine LWp.bind (lwp_installConfiguration hb hmem fun s₁ hb₁ hsame hpending => ?_)
  refine LWp.of_modify ?_
  have hlast : s₁.lastIndex = s.lastIndex := by
    unfold Node.lastIndex
    rw [hsame.1, hsame.2.1]
  have htracks : W.pend → s₁.Tracks i s₁.lastIndex := fun hp => by
    rw [hlast]
    exact (hpend hp).of_same hpending fun j _ _ => Node.ConfigAt.congr hsame.1 hsame.2.1
  have hpass := fun hp => (htracks hp).pass
  split at hpass
  · rename_i heq
    rw [if_pos heq]
    exact hq _ { hb₁ with } hsame hpass
  · rename_i hne
    rw [if_neg hne]
    exact hq _ hb₁ hsame hpass

/-- The entries from the old commit index on change the voters in turn. -/
theorem lwp_applyCommittedConfigurations {Q : Unit → Node σ → Prop} {k last : Nat} (hb : Body W s)
    (hlo : W.settled → s.baseIndex ≤ k) (hk : W.settled → k ≤ last)
    (hhi : W.settled → last ≤ s.lastIndex) (hpend : W.pend → s.Tracks k s.lastIndex)
    (hq : ∀ s', Body W s' → SameLog s s' → (W.pend → s'.Tracks last s'.lastIndex) → Q ⟨⟩ s') :
    LWp W (applyCommittedConfigurations (k + 1) last) Q s := by
  refine LWp.bind (LWp.of_get ?_)
  obtain ⟨first, hfirst⟩ : ∃ first, first = if k + 1 ≤ s.baseIndex then s.baseIndex + 1 else k + 1 :=
    ⟨_, rfl⟩
  rw [← hfirst]
  have hsettled : W.settled → first = k + 1 := fun hs => by
    have := hlo hs
    rw [hfirst, if_neg (by omega)]
  have hbase : s.baseIndex < first := by
    rw [hfirst]
    split <;> omega
  unfold indexes
  refine (LWp.forM_range (I := fun i s' => Body W s' ∧ SameLog s s' ∧
    (W.pend → s'.Tracks (i - 1) s'.lastIndex)) ?_ ?_).mono ?_
  · rintro i hi hi' s' ⟨hb', hsame, hpend'⟩
    obtain ⟨i, rfl⟩ : ∃ i', i = i' + 1 := ⟨i - 1, by omega⟩
    have hlast : s'.lastIndex = s.lastIndex := by
      unfold Node.lastIndex
      rw [hsame.1, hsame.2.1]
    refine lwp_applyCommittedConfiguration hb' (fun ht => ?_) hpend' fun s'' hb'' hsame' hpend'' =>
      ⟨hb'', hsame.trans hsame', hpend''⟩
    have := hhi (W.total_settled ht)
    rw [hsame.2.1, hlast]
    omega
  · refine ⟨hb, SameLog.refl s, fun hp => ?_⟩
    rw [hsettled (W.pend_settled hp)]
    exact hpend hp
  · rintro _ s' ⟨hb', hsame, hpend'⟩
    refine hq s' hb' hsame fun hp => ?_
    have hs := W.pend_settled hp
    have := hpend' hp
    have := hk hs
    rw [hsettled hs, show k + 1 + (last + 1 - (k + 1)) - 1 = last by omega] at hpend'
    exact hpend' hp

end Promtact.Raft
