import Promtact.Raft.Cluster

/-!
# What a program may change

`Within R k f s` says that the program `f`, run from the state `s`, ends in a state that `R k`
relates to `s`, also when it panics; `k` bounds the messages that it sends.

An `Effect` is a relation that composes and has room for what most functions of a node do. Only
some functions store, enter a term, take the lead or move the applied index; an effect has
room for each of these or not, which is a class of its own. There is one lemma for each function.
The number of messages (`Emission`), the applied index (`Idle`), facts about the term and the
store (`Along`), and not leading (`Progress`) are all effects.
-/

namespace Promtact.Raft

open Node (indexes)

variable {σ α β : Type}

/-- The state in which a program ends. -/
def finalState : EStateM.Result Panic (Node σ) α → Node σ
  | .ok _ s => s
  | .error _ s => s

theorem finalState_bind {f : NodeM σ α} {g : α → NodeM σ β} {s : Node σ} :
    finalState ((f >>= g) s) = match f s with
      | .ok a s' => finalState (g a s')
      | .error _ s' => s' := by
  show finalState (EStateM.bind f g s) = _
  unfold EStateM.bind
  cases f s <;> rfl

theorem finalState_map (f : NodeM σ α) (g : α → β) (s : Node σ) :
    finalState ((do return g (← f) : NodeM σ β) s) = finalState (f s) := by
  rw [finalState_bind]
  cases f s <;> rfl

/-- Reading changes nothing, also when it panics. -/
theorem finalState_ask {s : Node σ} (q : Node σ → Except Panic α) (k : α → NodeM σ β)
    (hk : ∀ a, q s = .ok a → finalState (k a s) = s) :
    finalState ((do k (← ask q) : NodeM σ β) s) = s := by
  rw [finalState_bind]
  unfold ask
  cases hq : q s with
  | ok a => exact hk a hq
  | error e => rfl

/-! ## Effects -/

/-- What most functions of a node leave alone. -/
def Node.frame (s : Node σ) : Nat × Nat × Word × List Message × σ × List Nat × Nat :=
  (s.id, s.term, s.preVoteMask, s.outbound, s.store, s.peers, s.applied)

/-- A relation between the states before and after a program that sends `k` messages at most. -/
class Effect (R : Nat → Node σ → Node σ → Prop) : Prop where
  trans : ∀ {k l : Nat} {s t u : Node σ}, R k s t → R l t u → R (k + l) s u
  mono : ∀ {k l : Nat} {s t : Node σ}, R k s t → k ≤ l → R l s t
  same : ∀ {s t : Node σ}, t.frame = s.frame → (t.state = .leader → s.state = .leader) → R 0 s t
  ensurePeers : ∀ (s : Node σ) (mask : Word), R 0 s (s.ensurePeers mask)
  send : ∀ (s : Node σ) (m : Message), R 1 s { s with outbound := s.outbound ++ [m] }
  halt : ∀ s : Node σ, R 0 s { s with outbound := [] }
  -- a message to each peer: no node has more than 64 of them
  peers : ∀ {s t : Node σ}, R s.peers.length s t → R 64 s t

/-- There is room for a hard state of the current term. -/
class StoresHard [StableStore σ] (R : Nat → Node σ → Node σ → Prop) : Prop extends Effect R where
  hard : ∀ {s : Node σ} {hard : HardState}, hard.term = s.term →
    R 0 s { s with store := (StableStore.saveHardState hard s.store).2 }

/-- There is room for entries and snapshots as well. -/
class Stores [StableStore σ] (R : Nat → Node σ → Node σ → Prop) : Prop extends StoresHard R where
  append : ∀ (s : Node σ) (index : Nat) (entry : Entry),
    R 0 s { s with store := (StableStore.append index entry s.store).2 }
  save : ∀ {store : SnapshotStore σ}, StableStore.snapshots = some store →
    ∀ (s : Node σ) (snapshot : Snapshot),
      R 0 s { s with store := (store.saveSnapshot snapshot s.store).2 }
  cut : ∀ {store : SnapshotStore σ}, StableStore.snapshots = some store →
    ∀ (s : Node σ) (index : Nat), R 0 s { s with store := (store.compactLog index s.store).2 }

/-- There is room for taking the lead. -/
class Crowns (R : Nat → Node σ → Node σ → Prop) : Prop where
  crown : ∀ s : Node σ, R 0 s { s with state := .leader }

/-- There is room for a later term, with what is stored on the way, and for pre-votes. -/
class Rises [StableStore σ] (R : Nat → Node σ → Node σ → Prop) : Prop extends Stores R, Crowns R where
  later : ∀ {s : Node σ} {hard : HardState}, s.term ≤ hard.term →
    R 0 s { s with store := (StableStore.saveHardState hard s.store).2 }
  term : ∀ {s : Node σ} {term : Nat}, s.term ≤ term → R 0 s { s with term := term }
  mask : ∀ (s : Node σ) (mask : Word), R 0 s { s with preVoteMask := mask }

/-- A relation that asks only about the peers, the queue and the applied index, and that the term
does not fall. -/
theorem Rises.of_free [StableStore σ] {R : Nat → Node σ → Node σ → Prop} [Effect R]
    (h : ∀ {s t : Node σ}, t.peers = s.peers → t.outbound = s.outbound → t.applied = s.applied →
      s.term ≤ t.term → R 0 s t) : Rises R where
  hard _ := h rfl rfl rfl (Nat.le_refl _)
  append _ _ _ := h rfl rfl rfl (Nat.le_refl _)
  save _ _ _ := h rfl rfl rfl (Nat.le_refl _)
  cut _ _ _ := h rfl rfl rfl (Nat.le_refl _)
  crown _ := h rfl rfl rfl (Nat.le_refl _)
  later _ := h rfl rfl rfl (Nat.le_refl _)
  term hle := h rfl rfl rfl hle
  mask _ _ := h rfl rfl rfl (Nat.le_refl _)

/-- There is room for moves of the applied index. -/
class Applies (R : Nat → Node σ → Node σ → Prop) : Prop where
  applied : ∀ (s : Node σ) (index : Nat), R 0 s { s with applied := index }

/-- The program keeps to the effect. -/
def Within (R : Nat → Node σ → Node σ → Prop) (k : Nat) (f : NodeM σ α) (s : Node σ) : Prop :=
  R k s (finalState (f s))

namespace Within

variable {R : Nat → Node σ → Node σ → Prop} {k l : Nat} {s : Node σ} {f f' : NodeM σ α}
  {g : α → NodeM σ β}

theorem elim {a : α} {s' : Node σ} (hf : Within R k f s) (hrun : f s = .ok a s') : R k s s' := by
  unfold Within at hf
  rwa [hrun] at hf

theorem of_get {g : Node σ → NodeM σ β} (hg : Within R k (g s) s) : Within R k (get >>= g) s := hg

theorem update {u : Node σ → Node σ} (hu : R k s (u s)) : Within R k (modify u) s := hu

theorem of_ite {c : Prop} [Decidable c] (ht : Within R k f s) (he : Within R k f' s) :
    Within R k (if c then f else f') s := by
  split
  · exact ht
  · exact he

theorem of_map (g : α → β) (hf : Within R k f s) : Within R k (do return g (← f)) s := by
  unfold Within
  rw [finalState_map]
  exact hf

variable [Effect R]

theorem mono (hf : Within R k f s) (hk : k ≤ l) : Within R l f s := Effect.mono hf hk

theorem of_pure {a : α} : Within R k (pure a) s :=
  Effect.mono (Effect.same rfl id) (Nat.zero_le k)

theorem bind (hf : Within R k f s) (hg : ∀ a t, Within R l (g a) t) :
    Within R (k + l) (f >>= g) s := by
  unfold Within at *
  rw [finalState_bind]
  cases hrun : f s with
  | error e t =>
    rw [hrun] at hf
    exact Effect.mono hf (Nat.le_add_right k l)
  | ok a t =>
    rw [hrun] at hf
    exact Effect.trans hf (hg a t)

/-- A first part that sends nothing. -/
theorem then_ (hf : Within R 0 f s) (hg : ∀ a t, Within R k (g a) t) : Within R k (f >>= g) s := by
  have := hf.bind hg
  rwa [Nat.zero_add] at this

/-- A last part that sends nothing. -/
theorem before (hf : Within R k f s) (hg : ∀ a t, Within R 0 (g a) t) : Within R k (f >>= g) s :=
  hf.bind hg

theorem of_modify {u : Node σ → Node σ} {g : PUnit → NodeM σ β} (hu : R 0 s (u s))
    (hg : Within R k (g ⟨⟩) (u s)) : Within R k (modify u >>= g) s := by
  have := Effect.trans hu hg
  rwa [Nat.zero_add] at this

theorem of_ask {q : Node σ → Except Panic α} (hg : ∀ a, Within R k (g a) s) :
    Within R k (ask q >>= g) s := by
  unfold Within
  rw [finalState_bind]
  unfold ask
  cases q s with
  | ok a => exact hg a
  | error e => exact of_pure (a := ())

theorem forM {ι : Type} {g : ι → NodeM σ PUnit} {l : List ι} (hg : ∀ i t, Within R 1 (g i) t) :
    Within R l.length (l.forM g) s := by
  induction l generalizing s with
  | nil => exact of_pure
  | cons i l ih =>
    rw [List.length_cons, Nat.add_comm]
    exact (hg i s).bind fun _ _ => ih

theorem silent_forM {ι : Type} {g : ι → NodeM σ PUnit} {l : List ι}
    (hg : ∀ i t, Within R 0 (g i) t) : Within R 0 (l.forM g) s := by
  induction l generalizing s with
  | nil => exact of_pure
  | cons i l ih => exact (hg i s).then_ fun _ _ => ih

/-- A message to each peer. -/
theorem peers_forM {g : Nat → NodeM σ PUnit} (hg : ∀ p t, Within R 1 (g p) t) :
    Within R 64 (s.peers.forM g) s := Effect.peers (forM hg)

theorem sent {m : Message} : Within R 1 (send m) s := by
  unfold Within
  by_cases hfull : s.outbound.length = outboundCapacity
  · have hrun : send m s = .error .outboundCapacityExceeded s := by
      show (if s.outbound.length = outboundCapacity then _ else _ : NodeM σ Unit) s = _
      rw [if_pos hfull]
      rfl
    rw [hrun]
    exact of_pure (a := ())
  · have hrun : send m s = .ok () { s with outbound := s.outbound ++ [m] } := by
      show (if s.outbound.length = outboundCapacity then _ else _ : NodeM σ Unit) s = _
      rw [if_neg hfull]
      rfl
    rw [hrun]
    exact Effect.send s m

end Within

namespace Effect

variable {R : Nat → Node σ → Node σ → Prop} [Effect R] {s t u : Node σ}

/-- Two changes, of which the second is one that most functions make. -/
theorem and_same (h : R 0 s t) (hframe : u.frame = t.frame)
    (hstate : u.state = .leader → t.state = .leader) : R 0 s u := trans h (same hframe hstate)

/-- A node that stops drops what it has not handed out. -/
theorem stop (hframe : t.frame = { s with outbound := [] }.frame) (hstate : t.state = .follower) :
    R 0 s t :=
  and_same (halt s) hframe fun h => State.noConfusion (hstate.symm.trans h)

end Effect

namespace Within

variable {R : Nat → Node σ → Node σ → Prop} [Effect R] {k : Nat} {s : Node σ}
  {call : σ → Option StoreError × σ}

theorem stopped : Within R 0 failStorage s := Effect.stop rfl rfl

/-- A store call that there is room for, and what follows. -/
theorem of_tryStore {g : Bool → NodeM σ β} (hcall : R 0 s { s with store := (call s.store).2 })
    (hok : Within R k (g true) { s with store := (call s.store).2 })
    (hfailed : ∀ t, Within R k (g false) t) : Within R k (tryStore call >>= g) s := by
  unfold Within
  rw [finalState_bind]
  cases hc : (call s.store).1 with
  | none =>
    rw [tryStore_ok hc]
    have := Effect.trans hcall hok
    rwa [Nat.zero_add] at this
  | some err =>
    rw [tryStore_error hc]
    have hstop : R 0 { s with store := (call s.store).2 } (failed s (call s.store).2 err) :=
      Effect.stop rfl rfl
    have := Effect.trans (Effect.trans hcall hstop) (hfailed _)
    rwa [Nat.zero_add] at this

theorem stored (hcall : R 0 s { s with store := (call s.store).2 }) :
    Within R 0 (tryStore call) s := by
  have := of_tryStore (g := pure) (k := 0) hcall of_pure fun _ => of_pure
  rwa [bind_pure] at this

end Within

open Within

/-! ## Programs that make no call -/

section Effect

variable {R : Nat → Node σ → Node σ → Prop} [Effect R] {s : Node σ}

theorem within_appendToContext (p : Nat) (context : Word) :
    Within R 1 (appendToContext p context) s := by
  refine of_get (of_ite sent (of_modify ?_ (of_get (of_ask fun _ => ?_))))
  · split <;> exact Effect.same rfl id
  · exact of_ite (of_ask fun _ => sent) sent

theorem within_broadcastAppend : Within R 64 broadcastAppend s :=
  of_get (peers_forM fun p _ => of_ask fun _ => of_ite (within_appendToContext p 0) of_pure)

theorem within_installConfiguration (entry : Entry) : Within R 0 (installConfiguration entry) s := by
  unfold installConfiguration
  split
  · exact of_modify (Effect.same rfl id) (update (Effect.ensurePeers _ _))
  · exact of_modify (Effect.same rfl id) (of_ask fun _ =>
      of_ite (update (Effect.same rfl State.noConfusion)) of_pure)
  · exact of_pure

theorem within_applyCommittedConfigurations (first last : Nat) :
    Within R 0 (applyCommittedConfigurations first last) s := by
  refine of_get (silent_forM fun index _ => of_ask fun entry =>
    (within_installConfiguration entry).then_ fun _ t => update ?_)
  split <;> exact Effect.same rfl id

theorem within_rebuildPendingConfig : Within R 0 rebuildPendingConfig s :=
  of_modify (Effect.same rfl id) (of_get (silent_forM fun _ _ => of_ask fun _ =>
    of_ite (of_modify (Effect.same rfl id) (update (Effect.ensurePeers _ _))) of_pure))

theorem within_truncateConflict (index term : Nat) : Within R 0 (truncateConflict index term) s := by
  refine of_get ?_
  split
  · exact of_ite (of_modify (Effect.same rfl id) within_rebuildPendingConfig) of_pure
  · exact of_pure

theorem Within.of_upToDate {k : Nat} {m : Message} {g : Bool → NodeM σ β}
    (hg : ∀ b, Within R k (g b) s) : Within R k (upToDate m >>= g) s := by
  simp only [upToDate, bind_assoc, pure_bind]
  exact of_get (of_ask fun _ => hg _)

theorem within_onPreVote (m : Message) : Within R 1 (onPreVote m) s :=
  of_get (of_upToDate fun _ => of_ask fun _ => sent)

theorem within_confirmRead (m : Message) : Within R 0 (confirmRead m) s :=
  of_get (of_ite (of_ask fun _ => of_ite (of_ask fun _ => of_modify (Effect.same rfl id) (of_ask fun _ =>
    of_ite (update (Effect.same rfl id)) of_pure)) of_pure) of_pure)

theorem within_onInstallSnapshotResponse (m : Message) :
    Within R 1 (onInstallSnapshotResponse m) s := by
  refine of_get (of_ite of_pure (of_ask fun _ => of_ite of_pure (of_modify ?_ (of_get ?_))))
  · split <;> exact Effect.same rfl id
  · exact of_ite (within_appendToContext _ 0) of_pure

theorem within_startReadIndex (context : Word) : Within R 64 (startReadIndex context) s :=
  of_ask fun _ => of_ite of_pure (of_ask fun _ => of_modify (Effect.same rfl id) (of_ask fun _ =>
    of_modify (Effect.same rfl id) (of_get ((peers_forM fun p _ =>
      within_appendToContext p context).before fun _ _ => of_pure))))

theorem within_transferLeadership (target : Nat) : Within R 1 (transferLeadership target) s :=
  of_get (of_ite of_pure (of_ask fun _ => of_ite of_pure (of_ite
    ((within_appendToContext _ 0).before fun _ _ => of_pure)
    (sent.before fun _ _ => of_pure))))

theorem within_applyEntries [Applies R] : Within R 0 applyEntries s := by
  refine of_get ?_
  generalize indexes (s.applied + 1) s.commit = l
  generalize ([] : List Entry) = dst
  induction l generalizing dst s with
  | nil => exact of_pure
  | cons index l ih =>
    rw [List.foldlM_cons]
    exact then_ (of_modify (Applies.applied _ _) (of_ask fun _ => of_pure)) fun dst _ => ih dst

theorem within_restore : Within R 0 restore s := by
  have hloop : ∀ (l : List Nat) (f : Folded) (s : Node σ), Within R 0 (restoreLoop l f) s := by
    intro l
    induction l with
    | nil => exact fun _ _ => of_pure
    | cons index rest ih =>
      refine fun f s => of_ask fun entry => of_get ?_
      cases foldEntry s.commit index f entry with
      | none => exact of_pure
      | some f => exact of_modify (Effect.ensurePeers _ _) (ih f _)
  refine of_get (of_ite stopped (then_ (of_get (then_ (hloop _ _ _) fun found _ => ?_))
    fun _ _ => of_ite stopped of_pure))
  cases found with
  | none => exact of_pure
  | some f => exact of_modify (Effect.same rfl id) of_pure

end Effect

variable [StableStore σ]

/-! ## Programs that store the hard state -/

section Hard

variable {R : Nat → Node σ → Node σ → Prop} [StoresHard R] {s : Node σ}

theorem within_commitTo (index : Nat) : Within R 0 (commitTo index) s :=
  of_get ((stored (StoresHard.hard rfl)).then_ fun _ _ => of_ite of_pure
    (of_modify (Effect.same rfl id) ((within_applyCommittedConfigurations _ _).then_ fun _ _ =>
      of_pure)))

theorem within_followCommit (m : Message) : Within R 0 (followCommit m) s :=
  of_get (of_ite of_pure (within_commitTo _))

theorem within_commitOwn : Within R 0 commitOwn s :=
  of_get (of_modify (Effect.same rfl id) ((stored (StoresHard.hard rfl)).then_ fun _ _ =>
    of_ite (of_modify (Effect.same rfl id) of_pure)
      ((within_applyCommittedConfigurations _ _).then_ fun _ _ => of_pure)))

theorem within_onVote (m : Message) : Within R 1 (onVote m) s :=
  of_get (of_upToDate fun _ => of_ask fun _ => of_ite sent
    ((stored (StoresHard.hard rfl)).then_ fun _ _ => of_ite of_pure
      (of_modify (Effect.same rfl id) sent)))

theorem within_advanceCommit : Within R 64 advanceCommit s := by
  refine of_get (of_ask fun found => ?_)
  cases found with
  | none => exact of_pure
  | some index =>
    exact (within_commitTo index).then_ fun _ _ => of_ite of_pure (of_get (of_ite
      (within_broadcastAppend.before fun _ _ => of_pure) of_pure))

theorem within_onAppendResponse (m : Message) : Within R 65 (onAppendResponse m) s := by
  refine (within_confirmRead m).then_ fun _ t => of_get (of_ite of_pure (of_ite ?_ ?_))
  · refine of_modify ?_ ((within_appendToContext _ 0).mono (by omega))
    split <;> exact Effect.same rfl id
  · exact of_modify (Effect.same rfl id) (within_advanceCommit.bind (l := 1) fun _ _ =>
      of_ite of_pure (of_get (of_ite of_pure (of_ite (within_appendToContext _ 0) of_pure))))

end Hard

/-! ## Programs that store entries and snapshots -/

section Stores

variable {R : Nat → Node σ → Node σ → Prop} [Stores R] {s : Node σ}

theorem within_appendLocal (entry : Entry) : Within R 0 (appendLocal entry) s :=
  of_get ((stored (Stores.append _ _ _)).then_ fun _ _ => of_ite of_pure
    (of_modify (Effect.same rfl id) (of_ask fun _ => of_ask fun _ => of_ite of_pure within_commitOwn)))

/-- The end of a proposal: an entry that is appended and sent to the peers. -/
theorem within_propose {entry : Entry} {f : NodeM σ Bool} (hf : ∀ t, Within R 64 f t) :
    Within R 64 (do
      if !(← appendLocal entry) then return false
      f) s :=
  (within_appendLocal entry).then_ fun _ t => of_ite of_pure (hf t)

theorem within_storeEntry (m : Message) : Within R 0 (storeEntry m) s :=
  of_ite of_pure ((within_truncateConflict _ _).then_ fun _ _ => of_get (of_ite of_pure
    ((stored (Stores.append _ _ _)).then_ fun _ _ => of_ite of_pure
      (of_modify (Effect.same rfl id) (of_ite (of_modify (Effect.same rfl id)
        (of_modify (Effect.ensurePeers _ _) of_pure)) of_pure)))))

theorem within_onAppend (m : Message) : Within R 1 (onAppend m) s :=
  of_get (of_ite sent (of_modify (Effect.same rfl State.noConfusion)
    ((within_storeEntry m).then_ fun _ _ => of_ite of_pure
      ((within_followCommit m).then_ fun _ _ => of_ite of_pure sent))))

theorem within_saveAndCompact (snapshot : Snapshot) : Within R 0 (saveAndCompact snapshot) s := by
  unfold saveAndCompact
  cases hstore : StableStore.snapshots (σ := σ) with
  | none => exact stopped.then_ fun _ _ => of_pure
  | some store =>
    exact (stored (Stores.save hstore _ _)).then_ fun _ _ =>
      of_ite of_pure (stored (Stores.cut hstore _ _))

theorem within_compact (index : Nat) (state : List UInt8) : Within R 0 (compact index state) s := by
  refine of_get (of_ite of_pure ?_)
  cases s.termAt index with
  | none => exact of_pure
  | some term =>
    refine (within_saveAndCompact _).then_ fun _ t => of_ite of_pure (of_modify ?_ of_pure)
    exact Effect.same rfl id

theorem within_onInstallSnapshot [Applies R] (m : Message) : Within R 1 (onInstallSnapshot m) s := by
  refine of_get (of_ite sent (then_ (of_get (of_ite of_pure ((within_saveAndCompact _).then_
    fun _ t => of_ite of_pure (of_modify ?_ of_pure)))) fun _ _ => of_ite of_pure
      (of_modify (Effect.same rfl State.noConfusion) (of_get sent))))
  exact Effect.and_same (Applies.applied t _) rfl id

/-! ## Taking the lead -/

variable [Crowns R]

theorem within_becomeLeader : Within R 64 becomeLeader s := by
  -- the indexes of the peers are set one after the other
  have hreset : ∀ (next : Nat) (l : List Nat) (t : Node σ),
      R 0 t (l.foldl (Node.resetProgress next) t) := by
    intro next l
    induction l with
    | nil => exact fun _ => Effect.same rfl id
    | cons p l ih =>
      intro t
      have hset : R 0 t (t.resetProgress next p) := Effect.same rfl id
      exact Effect.trans hset (ih _)
  exact of_modify (Effect.and_same (Crowns.crown s) rfl id) (of_get ((within_appendLocal _).then_
    fun _ t => of_ite of_pure (of_modify (hreset _ _ t) within_broadcastAppend)))

theorem within_onVoteResponse (m : Message) : Within R 64 (onVoteResponse m) s :=
  of_get (of_ite of_pure (of_ask fun _ => of_ite of_pure (of_ite of_pure (of_ask fun _ =>
    of_modify (Effect.same rfl id) (of_ask fun _ => of_ite within_becomeLeader of_pure)))))

end Stores

/-! ## Entering a term -/

section Rises

variable {R : Nat → Node σ → Node σ → Prop} [Rises R] {s : Node σ}

theorem within_startElection : Within R 128 startElection s := by
  refine of_get (of_tryStore (Rises.later (Nat.le_succ _)) (of_ask fun own => of_modify ?_ (of_get
    (Within.bind (k := 64) (l := 64) (peers_forM fun _ _ => of_ask fun _ => sent) fun _ _ =>
      of_ask fun _ => of_ite within_becomeLeader of_pure))) fun _ => of_pure)
  exact Effect.and_same (Effect.trans (Rises.term (Nat.le_succ _)) (Rises.mask _ 0)) rfl State.noConfusion

theorem within_startPreVote : Within R 192 startPreVote s :=
  of_ask fun own => of_modify (Effect.and_same (Rises.mask s own) rfl id) (of_get
    (Within.bind (k := 64) (l := 128) (peers_forM fun _ _ => of_ask fun _ => sent) fun _ _ =>
      of_ask fun _ => of_ite within_startElection of_pure))

theorem within_tick : Within R 192 tick s :=
  of_get (of_ite of_pure (of_modify (Effect.same rfl id) (of_get (of_ite
    (of_ite (of_modify (Effect.same rfl id) (within_broadcastAppend.mono (by omega))) of_pure)
    (of_ite within_startPreVote of_pure)))))

theorem within_onPreVoteResponse (m : Message) : Within R 128 (onPreVoteResponse m) s :=
  of_get (of_ite of_pure (of_ask fun _ => of_ite of_pure (of_ite of_pure (of_ask fun _ =>
    of_modify (Effect.and_same (Rises.mask s _) rfl id) (of_ask fun _ =>
      of_ite within_startElection of_pure)))))

theorem within_onTimeoutNow (m : Message) : Within R 128 (onTimeoutNow m) s :=
  of_get (of_ite within_startElection of_pure)

theorem within_adoptTerm (m : Message) : Within R 0 (adoptTerm m) s := by
  refine of_get ?_
  split
  · exact of_pure
  · rename_i hno
    simp only [Bool.or_eq_true, decide_eq_true_eq, not_or, Nat.not_le] at hno
    refine of_tryStore (Rises.later (Nat.le_of_lt hno.2)) (of_modify ?_ of_pure) fun _ => of_pure
    exact Effect.and_same (Rises.term (Nat.le_of_lt hno.2)) rfl State.noConfusion

/-! ## Operations -/

/-- A message; only a snapshot moves the applied index. -/
theorem within_step {m : Message} (hm : m.type = .installSnapshot → Applies R) :
    Within R 128 (step m) s := by
  refine of_get (of_ite of_pure ((within_adoptTerm m).then_ fun _ _ => of_ite of_pure ?_))
  split
  · exact (within_onPreVote m).mono (by omega)
  · exact within_onPreVoteResponse m
  · exact (within_onVote m).mono (by omega)
  · exact (within_onVoteResponse m).mono (by omega)
  · exact (within_onAppend m).mono (by omega)
  · exact (within_onAppendResponse m).mono (by omega)
  · have := hm ‹_›
    exact (within_onInstallSnapshot m).mono (by omega)
  · exact (within_onInstallSnapshotResponse m).mono (by omega)
  · exact within_onTimeoutNow m
  · exact of_pure

/-- The operations that may move the applied index. -/
def Op.MayApply (op : Op) : Prop :=
  op = .applyEntries ∨ ∃ m, op = .step m ∧ m.type = .installSnapshot

theorem within_exec {op : Op} (hop : op.MayApply → Applies R) : Within R 192 op.exec s := by
  have hout : ∀ {α : Type} {k : Nat} {f : NodeM σ α} (g : α → Output), Within R k f s → k ≤ 192 →
      Within R 192 (do return g (← f)) s := fun g hf hk => of_map g (hf.mono hk)
  have hsend : ∀ t : Node σ, Within R 64 (do broadcastAppend; return true) t := fun t =>
    within_broadcastAppend.before fun _ _ => of_pure
  have hpending : ∀ t : Node σ, Within R 64 (do
      modify fun n => { n with pendingConfig := n.lastIndex }
      broadcastAppend
      return true) t := fun t => of_modify (Effect.same rfl id) (hsend _)
  cases op with
  | tick => exact hout (fun _ => .nothing) within_tick (Nat.le_refl _)
  | step m =>
    exact hout (fun _ => .nothing) (within_step fun h => hop (.inr ⟨m, rfl, h⟩)) (by omega)
  | propose command =>
    exact hout (k := 64) .accepted (of_get (of_ite of_pure (within_propose hsend))) (by omega)
  | proposeRequest operation clientID requestID key value =>
    exact hout (k := 64) .accepted (of_get (of_ite of_pure (within_propose hsend))) (by omega)
  | proposeJoint ids =>
    refine hout (k := 64) .accepted (of_ask fun mask => ?_) (by omega)
    cases mask with
    | none => exact of_pure
    | some mask =>
      exact of_get (of_ite of_pure (of_modify (Effect.ensurePeers _ _) (within_propose hpending)))
  | proposeFinal =>
    exact hout (k := 64) .accepted (of_get (of_ite of_pure (within_propose hpending))) (by omega)
  | transferLeadership target => exact hout .accepted (within_transferLeadership target) (by omega)
  | startReadIndex context => exact hout .accepted (within_startReadIndex context) (by omega)
  | applyEntries =>
    have := hop (.inl rfl)
    exact hout .entries within_applyEntries (by omega)
  | compact index state => exact hout .accepted (within_compact index state) (by omega)
  | drain => exact hout (k := 0) .messages (Effect.halt s) (by omega)

end Rises

end Promtact.Raft
