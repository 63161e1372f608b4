import Promtact.Raft.Effects
import Promtact.Raft.Simulation

/-!
# How many messages an operation sends

A node sends at most one message to each peer and phase: a pre-vote that wins at
once is followed by an election, and an election that wins at once by a
broadcast. `Emits k f` says that the program `f` adds at most `k` messages to the
outbound queue, in whatever state it starts and whether it ends normally or
panics. No node has more than 64 peers (`Tame`), so that no operation sends more
than 192 messages (`emits_exec`).
-/

namespace Promtact.Raft

open Node (indexes)

variable {σ α β : Type}

/-! ## Peers -/

/-- The peers are different node IDs. -/
def Tame (s : Node σ) : Prop := s.peers.Nodup ∧ ∀ p ∈ s.peers, 0 < p ∧ p ≤ 64

theorem Tame.length_le {s : Node σ} (hs : Tame s) : s.peers.length ≤ 64 := by
  have hsub : s.peers.toFinset ⊆ Finset.Icc 1 64 := by
    intro p hp
    obtain ⟨h0, h64⟩ := hs.2 p (List.mem_toFinset.mp hp)
    exact Finset.mem_Icc.mpr ⟨h0, h64⟩
  have hcard := Finset.card_le_card hsub
  rwa [List.toFinset_card_of_nodup hs.1, Nat.card_Icc] at hcard

theorem Tame.ensurePeers {s : Node σ} (hs : Tame s) (mask : Word) : Tame (s.ensurePeers mask) := by
  unfold Node.ensurePeers
  refine List.foldlRecOn (motive := Tame) _ _ hs ?_
  intro s hs id hid
  obtain ⟨h0, h64⟩ := mem_indexes.mp hid
  unfold Node.ensurePeer
  split
  · exact hs
  · rename_i hno
    simp only [not_or] at hno
    refine ⟨List.Nodup.append hs.1 (List.nodup_singleton id) ?_, fun p hp => ?_⟩
    · simpa using hno.2.2
    · rcases List.mem_append.mp hp with hold | hnew
      · exact hs.2 p hold
      · rw [List.mem_singleton] at hnew
        subst hnew
        exact ⟨h0, h64⟩

theorem tame_of_initialVoters (id : Nat) {voters : Word} {s : Node σ}
    (hv : initialVoters id s.peers = .ok voters) : Tame s := by
  obtain ⟨own, _, hf⟩ := bind_eq_ok.mp hv
  exact (peers_of_seen hf).2

/-! ## Programs -/

/-- The program sends at most `k` messages. -/
def Emits (k : Nat) (f : NodeM σ α) : Prop :=
  ∀ s, Tame s →
    match f s with
    | .ok _ s' => Tame s' ∧ s'.outbound.length ≤ s.outbound.length + k
    | .error _ s' => s'.outbound.length ≤ s.outbound.length + k

/-- The queue grows by at most `k` messages, and the peers stay different node IDs. -/
def Emission (k : Nat) (s t : Node σ) : Prop :=
  Tame s → Tame t ∧ t.outbound.length ≤ s.outbound.length + k

theorem Emission.of_eq {s t : Node σ} (hpeers : t.peers = s.peers)
    (hout : t.outbound = s.outbound) : Emission 0 s t := by
  intro hs
  unfold Tame
  rw [hpeers, hout]
  exact ⟨hs, Nat.le_refl _⟩

instance : Effect (Emission (σ := σ)) where
  trans h₁ h₂ hs := by
    obtain ⟨ht, hle₁⟩ := h₁ hs
    obtain ⟨hu, hle₂⟩ := h₂ ht
    exact ⟨hu, by omega⟩
  mono h hk hs := ⟨(h hs).1, by have := (h hs).2; omega⟩
  same hframe _ := by
    simp only [Node.frame, Prod.mk.injEq] at hframe
    obtain ⟨_, _, _, hout, _, hpeers, _⟩ := hframe
    exact Emission.of_eq hpeers hout
  ensurePeers s mask hs := by
    refine ⟨hs.ensurePeers mask, ?_⟩
    rw [ensurePeers_frame Node.outbound (fun _ _ _ _ => rfl) mask s]
    exact Nat.le_refl _
  send _ _ hs := ⟨hs, by simp⟩
  halt _ hs := ⟨hs, Nat.zero_le _⟩
  peers h hs := ⟨(h hs).1, by have := (h hs).2; have := hs.length_le; omega⟩

instance : Applies (Emission (σ := σ)) where
  applied _ _ := Emission.of_eq rfl rfl

theorem emits_of_within {k : Nat} {f : NodeM σ α} (hf : ∀ s, Within Emission k f s) : Emits k f := by
  intro s hs
  have := hf s hs
  cases hrun : f s with
  | ok a s' =>
    rw [hrun] at this
    exact this
  | error e s' =>
    rw [hrun] at this
    exact this.2

theorem emits_restore : Emits 0 (restore : NodeM σ Unit) := emits_of_within fun _ => within_restore

theorem emits_restoreSnapshot (hard : HardState) (snapshot : Snapshot) (suffix : List Entry) :
    Emits 0 (restoreSnapshot hard snapshot suffix : NodeM σ Unit) := by
  refine emits_of_within fun s => Within.of_modify (Emission.of_eq rfl rfl) ?_
  refine Within.of_ite Within.stopped (Within.of_modify (Effect.ensurePeers _ _) ?_)
  generalize Node.ensurePeers _ _ = t
  exact Within.of_modify (Emission.of_eq rfl rfl) within_restore

variable [StableStore σ]

instance : Rises (Emission (σ := σ)) :=
  Rises.of_free fun hpeers hout _ _ => Emission.of_eq hpeers hout

theorem emits_step (m : Message) : Emits 128 (step m : NodeM σ Unit) :=
  emits_of_within fun _ => within_step fun _ => inferInstance

/-- No operation sends more than three messages to a peer. -/
theorem emits_exec (op : Op) : Emits 192 (op.exec : NodeM σ Output) :=
  emits_of_within fun _ => within_exec fun _ => inferInstance

end Promtact.Raft
