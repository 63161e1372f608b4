import Promtact.Raft.Along
import Promtact.Raft.FailStop

/-!
# An isolated minority

A node asks for pre-votes before it starts an election, and an election raises its term. The
pre-votes of a round are collected in a mask, which a later round clears and a response of an
earlier round does not get into; but responses may be repeated, delayed and mixed over any
number of rounds. Whatever is in the mask, only this node and the senders of granted
pre-votes are (`Collected`), so that a mask that is a quorum makes a quorum of those.

A node that never hears of a quorum of pre-votes, and of no later term, keeps its term
(`isolated_minority_keeps_term`).
-/

namespace Promtact.Raft

open Function (update)

/-! ## Quorums of nodes -/

/-- More than half of the voters of the mask are among the nodes. -/
def MajorityOf (voters : Word) (ids : List Nat) : Prop :=
  (BitSet.ones voters).card < 2 * ((BitSet.ones voters).filter fun i => i.val + 1 ∈ ids).card

instance (voters : Word) (ids : List Nat) : Decidable (MajorityOf voters ids) :=
  inferInstanceAs (Decidable (_ < _))

theorem majorityOf_of_mask {voters mask : Word} {ids : List Nat}
    (hmask : ∀ id, Member mask id → id ∈ ids) (hmajority : majorityMask voters mask = true) :
    MajorityOf voters ids := by
  simp only [majorityMask, bitsSet_eq_card, Bool.and_eq_true, decide_eq_true_eq] at hmajority
  have hsub : BitSet.ones (voters &&& mask) ⊆
      (BitSet.ones voters).filter fun i => i.val + 1 ∈ ids := by
    intro i hi
    rw [BitSet.mem_ones, BitVec.getLsbD_and, Bool.and_eq_true] at hi
    have hlt : i.val < 64 := i.isLt
    exact Finset.mem_filter.mpr ⟨BitSet.mem_ones.mpr hi.1,
      hmask _ ⟨by omega, by omega, by simpa using hi.2⟩⟩
  have hle := Finset.card_le_card hsub
  unfold MajorityOf
  omega

variable {σ : Type} {s : Node σ} {m : Message}

/-- The nodes are a quorum of the effective voters, of the old and of the new ones. -/
def Node.Quorate (s : Node σ) (ids : List Nat) : Prop :=
  match s.effectiveVoters with
  | .ok voters => MajorityOf voters.1 ids ∧ (voters.2 = 0 ∨ MajorityOf voters.2 ids)
  | .error _ => False

instance (s : Node σ) (ids : List Nat) : Decidable (s.Quorate ids) := by
  unfold Node.Quorate
  split <;> infer_instance

theorem quorate_of_mask {mask : Word} {ids : List Nat} (hmask : ∀ id, Member mask id → id ∈ ids)
    (hquorum : s.quorumMask mask = .ok true) : s.Quorate ids := by
  obtain ⟨voters, hvoters, hjoint⟩ := bind_eq_ok.mp hquorum
  have hjoint : Node.jointMajority voters mask = true := Except.ok.inj hjoint
  simp only [Node.jointMajority, Bool.and_eq_true, Bool.or_eq_true, decide_eq_true_eq] at hjoint
  unfold Node.Quorate
  rw [hvoters]
  exact ⟨majorityOf_of_mask hmask hjoint.1, hjoint.2.imp_right (majorityOf_of_mask hmask)⟩

/-! ## What is kept -/

/-- The term did not move, only these nodes are in the pre-vote mask, and no later term was
stored. -/
structure Collected (term : Nat) (calls : List (StoreCall × Bool)) (senders : List Nat)
    (id current : Nat) (mask : Word) (r : Recorder σ) : Prop where
  steady : current = term
  among : ∀ p, Member mask p → p ∈ id :: senders
  stored : ∃ new, r.calls = calls ++ new ∧
    ∀ hard ok, (StoreCall.saveHardState hard, ok) ∈ new → hard.term ≤ term

section Collecting

variable {term : Nat} {calls : List (StoreCall × Bool)} {senders : List Nat}

/-- One more call. -/
theorem Collected.record {id current : Nat} {mask : Word} {r : Recorder σ} {call : StoreCall}
    {f : σ → Option StoreError × σ} (h : Collected term calls senders id current mask r)
    (hcall : ∀ hard, call = .saveHardState hard → hard.term ≤ term) :
    Collected term calls senders id current mask (Recorder.record call f r).2 := by
  obtain ⟨new, hnew, hbound⟩ := h.stored
  refine { h with stored := ⟨new ++ [(call, (f r.store).1.isNone)], ?_, fun hard ok hmem => ?_⟩ }
  · show r.calls ++ _ = _
    rw [hnew, List.append_assoc]
  · rcases List.mem_append.mp hmem with hold | hlast
    · exact hbound hard ok hold
    · exact hcall hard (Prod.mk.inj (List.mem_singleton.mp hlast)).1.symm

variable [StableStore σ]

instance : Stores (Holding (Collected (σ := σ) term calls senders)) where
  hard {s hard} hterm hs := hs.record fun hard' heq => by
    cases heq
    exact Nat.le_of_eq (hterm.trans hs.steady)
  append _ _ _ hs := hs.record fun _ => (nomatch ·)
  save hstore _ _ hs := by
    obtain ⟨inner, _, rfl⟩ := Option.map_eq_some_iff.mp hstore
    exact hs.record fun _ => (nomatch ·)
  cut hstore _ _ hs := by
    obtain ⟨inner, _, rfl⟩ := Option.map_eq_some_iff.mp hstore
    exact hs.record fun _ => (nomatch ·)

variable {s : Node (Recorder σ)} {ids : List Nat}

/-- A round of pre-vote requests. -/
theorem collected_startPreVote (hs : Held (Collected term calls senders) s)
    (hminority : ¬ s.Quorate (s.id :: senders)) :
    Along (Held (Collected term calls senders)) startPreVote
      (fun _ => Held (Collected term calls senders)) s := by
  refine Along.bind (Along.of_ask hs fun own hown => Along.bind (Along.of_modify ?_))
  obtain ⟨h0, h64, rfl⟩ := range_of_nodeBit hown
  have hmask : ∀ p, Member (bitOf s.id) p → p ∈ s.id :: senders := fun p hp => by
    rw [(member_bitOf h0 h64).mp hp]
    exact List.mem_cons_self
  obtain ⟨s₁, hs₁⟩ : ∃ s₁, s₁ = { s with
    elapsed := 0, preVoteTerm := s.term + 1, leader := 0, preVoteMask := bitOf s.id } := ⟨_, rfl⟩
  rw [← hs₁]
  have hheld : ∀ out, Held (Collected term calls senders) { s₁ with outbound := out } := by
    rw [hs₁]
    exact fun out => { hs with among := hmask }
  refine Along.bind (Along.of_get (Along.bind ?_))
  refine Along.mono (Q := fun _ s' => ∃ out, s' = { s₁ with outbound := out }) ?_ ?_
  · refine Along.forM ?_ ⟨_, rfl⟩
    rintro p _ _ ⟨out, rfl⟩
    exact Along.bind (Along.of_ask (hheld out) fun _ _ => Along.of_send (hheld out) ⟨_, rfl⟩)
  · rintro _ _ ⟨out, rfl⟩
    refine Along.bind (Along.of_ask (hheld out) fun quorum hquorum => ?_)
    refine Along.ite (fun hyes => ?_) fun _ => Along.of_pure (hheld out)
    rw [hyes, hs₁] at hquorum
    exact absurd (quorate_of_mask (s := s) hmask hquorum) hminority

theorem collected_tick (hs : Held (Collected term calls senders) s)
    (hminority : ¬ s.Quorate (s.id :: senders)) :
    Along (Held (Collected term calls senders)) tick
      (fun _ => Held (Collected term calls senders)) s := by
  refine Along.bind (Along.of_get (Along.ite (fun _ => Along.of_pure hs) fun _ => ?_))
  refine Along.bind (Along.of_modify (Along.bind (Along.of_get ?_)))
  refine Along.ite (fun _ => Along.ite (fun _ => Along.bind (Along.of_modify ?_)) fun _ =>
    Along.of_pure hs) fun _ => Along.ite (fun _ => ?_) fun _ => Along.of_pure hs
  · exact within_broadcastAppend.along (s := { s with elapsed := 0 }) hs
  · exact collected_startPreVote (s := { s with elapsed := s.elapsed + 1 }) hs hminority

theorem collected_onPreVoteResponse (hs : Held (Collected term calls senders) s)
    (hsub : ∀ p ∈ senders, p ∈ ids) (hfrom : m.reject = false → m.fromID ∈ ids)
    (hminority : ¬ s.Quorate (s.id :: ids)) :
    Along (Held (Collected term calls ids)) (onPreVoteResponse m)
      (fun _ => Held (Collected term calls ids)) s := by
  have hmask : ∀ p, Member s.preVoteMask p → p ∈ s.id :: ids := fun p hp =>
    (List.mem_cons.mp (hs.among p hp)).elim (fun h => List.mem_cons.mpr (Or.inl h))
      fun h => List.mem_cons_of_mem _ (hsub p h)
  replace hs : Held (Collected term calls ids) s := { hs with among := hmask }
  refine Along.bind (Along.of_get (Along.ite (fun _ => Along.of_pure hs) fun _ => ?_))
  refine Along.bind (Along.of_ask hs fun _ _ => Along.ite (fun _ => Along.of_pure hs) fun _ => ?_)
  refine Along.ite (fun _ => Along.of_pure hs) fun haccepted => ?_
  refine Along.bind (Along.of_ask hs fun bit hbit => Along.bind (Along.of_modify ?_))
  obtain ⟨h0, h64, rfl⟩ := range_of_nodeBit hbit
  simp only [Bool.or_eq_true, not_or, Bool.not_eq_true] at haccepted
  have hmask' : ∀ p, Member (s.preVoteMask ||| bitOf m.fromID) p → p ∈ s.id :: ids := fun p hp => by
    rcases member_or.mp hp with hold | hnew
    · exact hmask p hold
    · rw [(member_bitOf h0 h64).mp hnew]
      exact List.mem_cons_of_mem _ (hfrom haccepted.2)
  have hs' : Held (Collected term calls ids) { s with
      preVoteMask := s.preVoteMask ||| bitOf m.fromID } := { hs with among := hmask' }
  refine Along.bind (Along.of_ask hs' fun quorum hquorum => ?_)
  refine Along.ite (fun hyes => ?_) fun _ => Along.of_pure hs'
  rw [hyes] at hquorum
  exact absurd (quorate_of_mask (s := s) hmask' hquorum) hminority

/-- The senders of granted pre-votes, with the one of this operation. -/
def granted (senders : List Nat) : Op → List Nat
  | .step m =>
    if m.type = .preVoteResponse ∧ m.reject = false then m.fromID :: senders else senders
  | _ => senders

theorem mem_granted {p : Nat} (hp : p ∈ senders) (op : Op) : p ∈ granted senders op := by
  cases op with
  | step m =>
    show p ∈ if m.type = .preVoteResponse ∧ m.reject = false then m.fromID :: senders else senders
    split
    · exact List.mem_cons_of_mem _ hp
    · exact hp
  | _ => exact hp

/-- A tick, or a message that is no request to take over and brings no later term. The node
and those who granted it a pre-vote so far are no quorum of the voters. -/
def Isolated (x : Node σ × List Nat) : Op → Prop
  | .tick => ¬ x.1.Quorate (x.1.id :: x.2)
  | .step m => m.type ≠ .timeoutNow ∧
      (m.type = .preVote ∨ m.type = .preVoteResponse ∨ m.term ≤ x.1.term) ∧
      ¬ x.1.Quorate (x.1.id :: granted x.2 (.step m))
  | _ => False

instance (x : Node σ × List Nat) (op : Op) : Decidable (Isolated x op) :=
  match op with
  | .tick => inferInstanceAs (Decidable (¬ x.1.Quorate (x.1.id :: x.2)))
  | .step m => inferInstanceAs (Decidable (m.type ≠ .timeoutNow ∧
      (m.type = .preVote ∨ m.type = .preVoteResponse ∨ m.term ≤ x.1.term) ∧
      ¬ x.1.Quorate (x.1.id :: granted x.2 (.step m))))
  | .propose _ | .proposeRequest .. | .proposeJoint _ | .proposeFinal | .transferLeadership _
  | .startReadIndex _ | .applyEntries | .compact .. | .drain => isFalse id

theorem collected_step (hs : Held (Collected term calls senders) s)
    (hisolated : Isolated (s, senders) (.step m)) :
    Along (Held (Collected term calls (granted senders (.step m)))) (step m)
      (fun _ => Held (Collected term calls (granted senders (.step m)))) s := by
  obtain ⟨htype, hterm, hminority⟩ := hisolated
  have hs' : Held (Collected term calls (granted senders (.step m))) s := { hs with
    among := fun p hp => (List.mem_cons.mp (hs.among p hp)).elim
      (fun h => List.mem_cons.mpr (Or.inl h)) fun h => List.mem_cons_of_mem _ (mem_granted h _) }
  refine Along.bind (Along.of_get (Along.ite (fun _ => Along.of_pure hs') fun _ => ?_))
  refine Along.bind (Along.of_ok (adoptTerm_eq hterm) ?_)
  refine Along.ite (fun hno => absurd hno (by simp)) fun _ => ?_
  cases hkind : m.type with
  | preVote => exact (within_onPreVote m).along hs'
  | preVoteResponse =>
    refine collected_onPreVoteResponse hs (fun p hp => mem_granted hp _) (fun hgranted => ?_) hminority
    show m.fromID ∈ if _ then _ else _
    rw [if_pos ⟨hkind, hgranted⟩]
    exact List.mem_cons_self
  | requestVote => exact (within_onVote m).along hs'
  | requestVoteResponse => exact (within_onVoteResponse m).along hs'
  | append => exact (within_onAppend m).along hs'
  | appendResponse => exact (within_onAppendResponse m).along hs'
  | installSnapshot => exact (within_onInstallSnapshot m).along hs'
  | installSnapshotResponse => exact (within_onInstallSnapshotResponse m).along hs'
  | timeoutNow => exact absurd hkind htype
  | other code => exact Along.of_pure hs'

/-- One tick or message, also when it panics. -/
theorem collected_after {op : Op} (hs : Held (Collected term calls senders) s)
    (hisolated : Isolated (s, senders) op) :
    Held (Collected term calls (granted senders op)) (s.after op) := by
  cases op with
  | tick =>
    show Held _ (finalState (Op.exec .tick s))
    rw [show Op.exec .tick = (do return (fun _ => Output.nothing) (← tick) : NodeM (Recorder σ) _)
      from rfl, finalState_map]
    exact (collected_tick hs hisolated).final
  | step m =>
    show Held _ (finalState (Op.exec (.step m) s))
    rw [show Op.exec (.step m) = (do return (fun _ => Output.nothing) (← step m) :
      NodeM (Recorder σ) _) from rfl, finalState_map]
    exact (collected_step hs hisolated).final
  | _ => exact hisolated.elim

/-- Through ticks and messages, with the senders of granted pre-votes so far. -/
theorem collected_run {ops : List Op} (hs : Held (Collected term calls senders) s)
    (hisolated : Runs.Always (fun x op => some (x.1.after op, granted x.2 op)) Isolated
      (s, senders) ops) : ∃ s' senders',
    Runs.run (fun x op => some (x.1.after op, granted x.2 op)) (s, senders) ops =
      some (s', senders') ∧ Held (Collected term calls senders') s' := by
  induction ops generalizing s senders with
  | nil => exact ⟨s, senders, rfl, hs⟩
  | cons op ops ih =>
    obtain ⟨s', senders', hrun, hs'⟩ := ih (collected_after hs hisolated.1) (hisolated.2 _ rfl)
    exact ⟨s', senders', Runs.run_cons.mpr ⟨_, rfl, hrun⟩, hs'⟩

end Collecting

/-- A pre-vote request is answered, and nothing else. -/
theorem after_preVote [StableStore σ] (htype : m.type = .preVote) :
    ∃ outbound, s.after (.step m) = { s with outbound := outbound } := by
  have hsame : ∃ outbound, s = { s with outbound := outbound } := ⟨s.outbound, rfl⟩
  have hstep : Along (fun s' => ∃ outbound, s' = { s with outbound := outbound }) (step m)
      (fun _ s' => ∃ outbound, s' = { s with outbound := outbound }) s := by
    refine Along.bind (Along.of_get (Along.ite (fun _ => Along.of_pure hsame) fun _ => ?_))
    refine Along.bind (Along.of_ok (adoptTerm_eq (Or.inl htype)) ?_)
    refine Along.ite (fun hno => absurd hno (by simp)) fun _ => ?_
    simp only [htype]
    refine Along.bind (Along.of_get (Along.bind (Along.bind (Along.of_get (Along.bind
      (Along.of_ask hsame fun _ _ => Along.of_pure ?_))))))
    exact Along.bind (Along.of_ask hsame fun _ _ => Along.of_send hsame ⟨_, rfl⟩)
  have hfinal := hstep.final
  rwa [← finalState_map (step m) fun _ => Output.nothing] at hfinal

section Isolation

variable [StableStore σ]

/-- A node that has no pre-votes, and that neither a later term nor a quorum of pre-votes
reaches, keeps its term, and stores no later one. A request for a pre-vote changes nothing at
the node that gets it. -/
theorem isolated_minority_keeps_term {s₀ : Node (Recorder σ)} {ops : List Op}
    (hempty : s₀.preVoteMask = 0)
    (hisolated : Runs.Always (fun x op => some (x.1.after op, granted x.2 op)) Isolated
      (s₀, []) ops) :
    (∃ s senders calls, Runs.run (fun x op => some (x.1.after op, granted x.2 op)) (s₀, []) ops =
        some (s, senders) ∧ s.term = s₀.term ∧ s.store.calls = s₀.store.calls ++ calls ∧
      ∀ hard ok, (StoreCall.saveHardState hard, ok) ∈ calls → hard.term ≤ s₀.term) ∧
    ∀ (s : Node (Recorder σ)) (m : Message), m.type = .preVote →
      (s.after (.step m)).term = s.term ∧ (s.after (.step m)).votedFor = s.votedFor ∧
      (s.after (.step m)).log = s.log ∧ (s.after (.step m)).commit = s.commit ∧
      (s.after (.step m)).store = s.store := by
  have hs₀ : Held (Collected s₀.term s₀.store.calls []) s₀ := {
    steady := rfl
    among := fun p hp => absurd hempty (member_ne_zero hp)
    stored := ⟨[], (List.append_nil _).symm, fun _ _ hno => absurd hno List.not_mem_nil⟩ }
  obtain ⟨s, senders, hrun, hs⟩ := collected_run hs₀ hisolated
  obtain ⟨calls, hcalls, hbound⟩ := hs.stored
  refine ⟨⟨s, senders, calls, hrun, hs.steady, hcalls, hbound⟩, fun s m htype => ?_⟩
  obtain ⟨outbound, hafter⟩ := after_preVote (s := s) htype
  rw [hafter]
  exact ⟨rfl, rfl, rfl, rfl, rfl⟩

end Isolation

/-! One of five nodes, cut off with another one, whose pre-vote it gets again and again. -/

def cutOffNode : Node (Recorder Disk) where
  id := 1
  peers := [2, 3, 4, 5]
  timeout := 1
  votersOld := 31
  store := { store := {} }

def grantedPreVote : Message :=
  { type := .preVoteResponse, fromID := 2, toID := 1, term := 1 }

def cutOffRun : List Op :=
  [.tick, .step grantedPreVote, .step grantedPreVote, .tick, .step grantedPreVote]

theorem isolated_minority_keeps_term_cutOffRun : ∃ s senders,
    Runs.run (fun x op => some (x.1.after op, granted x.2 op)) (cutOffNode, []) cutOffRun =
      some (s, senders) ∧ s.term = 0 := by
  have hisolated : Runs.Always (fun x op => some (x.1.after op, granted x.2 op)) Isolated
      (cutOffNode, []) cutOffRun := by decide +kernel
  obtain ⟨⟨s, senders, _, hrun, hterm, _⟩, _⟩ := isolated_minority_keeps_term rfl hisolated
  exact ⟨s, senders, hrun, hterm⟩

end Promtact.Raft
