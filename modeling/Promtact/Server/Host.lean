import Promtact.Raft.Process
import Promtact.Server.Round

/-!
# One server through rounds and restarts

A host runs a server, or has the data directory of one that ended: its loop returned, it
panicked, or it did not start. What happens to a host is an input of its server, with any
message, or a restart with any configuration of the same ID.

`Passed` says what an event leaves behind. A server whose node is
`Local` keeps it so, and between two rounds no message is queued (`run_local`).
-/

namespace Promtact

open Raft (Node NodeM Message Word Entry Op Panic StableStore OpenStore Recovery Watch Safe)
open StateMachine (Machine)

inductive Host (σ : Type)
  | absent
  | up (s : Server σ)
  | ended (s : Server σ)

variable {σ : Type}

namespace Server

/-- The server on an empty data directory. -/
def new (config : Config) (store : σ) : Except Panic (Server σ) := do
  return { config := config
           node := ← Raft.newNodeWithStore config.id config.peerIDs config.timeout store }

/-- Before a round nothing of it was noted. -/
def fresh (s : Server σ) : Server σ := { s with output := [], calls := [] }

end Server

namespace Host

/-- The server that runs, or the one that ended. -/
def server? : Host σ → Option (Server σ)
  | absent => none
  | up s => some s
  | ended s => some s

inductive Event
  | input (input : Server.Input)
  | restart (config : Server.Config)
  deriving DecidableEq

variable [OpenStore σ]

/-- One event; `none` when it cannot happen. -/
def next (h : Host σ) : Event → Option (Host σ)
  | .input input =>
    match h with
    | .up s =>
      match Server.loopOnce input s.fresh with
      | .ok true s' => some (.up s')
      | .ok false s' => some (.ended s')
      | .error _ s' => some (.ended s')
    | _ => none
  | .restart config => do
    let s ← h.server?
    guard (config.id = s.config.id)
    let (store, recovery) ← OpenStore.reopen s.node.store
    match Server.openServer config store recovery with
    | .ok (s', none) => some (.up s')
    | .ok (s', some _) => some (.ended s')
    | .error _ => none

variable {h h' : Host σ} {s s' : Server σ} {input : Server.Input} {config : Server.Config}

/-- What an event leaves behind. A round is completed, or ends the loop, or panics; a restart
gives a server, or one that reports an error. -/
inductive Passed (h : Host σ) : Event → Host σ → Prop
  | completed {input : Server.Input} {s s' : Server σ} (hup : h = .up s)
    (hloop : Server.loopOnce input s.fresh = .ok true s') : Passed h (.input input) (.up s')
  | returned {input : Server.Input} {s s' : Server σ} (hup : h = .up s)
    (hloop : Server.loopOnce input s.fresh = .ok false s') : Passed h (.input input) (.ended s')
  | panicked {input : Server.Input} {s s' : Server σ} {e : Panic} (hup : h = .up s)
    (hloop : Server.loopOnce input s.fresh = .error e s') : Passed h (.input input) (.ended s')
  | started {config : Server.Config} {s s' : Server σ} {store : σ} {recovery : Recovery}
    (hs : h.server? = some s) (hid : config.id = s.config.id)
    (hopen : OpenStore.reopen s.node.store = some (store, recovery))
    (hserver : Server.openServer config store recovery = .ok (s', none)) :
    Passed h (.restart config) (.up s')
  | refused {config : Server.Config} {s s' : Server σ} {store : σ} {recovery : Recovery}
    {err : Server.OpenError} (hs : h.server? = some s) (hid : config.id = s.config.id)
    (hopen : OpenStore.reopen s.node.store = some (store, recovery))
    (hserver : Server.openServer config store recovery = .ok (s', some err)) :
    Passed h (.restart config) (.ended s')

theorem passed_of_some {ev : Event} (hnext : h.next ev = some h') : Passed h ev h' := by
  cases ev with
  | input input =>
    cases h with
    | absent => cases hnext
    | ended s => cases hnext
    | up s =>
      simp only [next] at hnext
      split at hnext
      · cases hnext
        exact .completed rfl ‹_›
      · cases hnext
        exact .returned rfl ‹_›
      · cases hnext
        exact .panicked rfl ‹_›
  | restart config =>
    obtain ⟨s, hs, hnext⟩ := Option.bind_eq_some_iff.mp hnext
    obtain ⟨_, hguard, hnext⟩ := Option.bind_eq_some_iff.mp hnext
    obtain ⟨⟨store, recovery⟩, hopen, hnext⟩ := Option.bind_eq_some_iff.mp hnext
    have hid : config.id = s.config.id := by
      by_contra hno
      simp [guard, hno] at hguard
    simp only [] at hnext
    split at hnext
    · cases hnext
      exact .started hs hid hopen ‹_›
    · cases hnext
      exact .refused hs hid hopen ‹_›
    · cases hnext

end Host

namespace Server

/-! ## The calls of a round -/

variable [StableStore σ] {s s' : Server σ} {input : Input} {more : Bool} {I : Node σ → Prop}

/-- The calls of a server that are not caused by a message. -/
def Mild : Op → Prop
  | .tick | .proposeRequest .. | .startReadIndex _ | .applyEntries | .compact .. | .drain => True
  | _ => False

theorem Handled.keeps {incoming : Request} (hh : Handled s incoming s') (hI : I s.node)
    (hcall : ∀ {n op out n'}, op.exec n = .ok out n' → Mild op → I n → I n') : I s'.node := by
  cases hh with
  | status => exact hI
  | notLeader => exact hI
  | readBusy => exact hI
  | readRefused _ hexec => exact hcall hexec trivial hI
  | readParked _ _ _ hexec => exact hcall hexec trivial hI
  | invalid => exact hI
  | cached => exact hI
  | joined => exact hI
  | refused _ _ _ hexec => exact hcall hexec trivial hI
  | proposed _ _ _ _ hexec => exact hcall hexec trivial hI

theorem Taken.keeps (ht : Taken s input s') (hI : I s.node)
    (hstep : ∀ m out n, input = .message m → (Op.step m).exec s.node = .ok out n → I n)
    (hcall : ∀ {n op out n'}, op.exec n = .ok out n' → Mild op → I n → I n') : I s'.node := by
  cases ht with
  | message hexec => exact hstep _ _ _ rfl hexec
  | tick hexec => exact hcall hexec trivial hI
  | request hh => exact hh.keeps hI hcall

omit [StableStore σ] in
theorem applied_node (s : Server σ) (n : Node σ) (entries : List Entry) :
    (s.applied n entries).node = n := by
  unfold applied
  rw [afterEntries_eq]
  rfl

theorem Compacted.keeps (hc : Compacted s s') (hI : I s.node)
    (hcall : ∀ {n op out n'}, op.exec n = .ok out n' → Mild op → I n → I n') : I s'.node := by
  cases hc with
  | kept => exact hI
  | called _ hexec => exact hcall hexec trivial hI

/-- What the calls of a round keep, the round keeps. -/
theorem Round.keeps (hr : Round s input more s') (hI : I s.node)
    (hstep : ∀ m out n, input = .message m → (Op.step m).exec s.node = .ok out n → I n)
    (hcall : ∀ {n op out n'}, op.exec n = .ok out n' → Mild op → I n → I n') : I s'.node := by
  cases hr with
  | ended htaken => exact htaken.keeps hI hstep hcall
  | @completed s₁ _ _ _ htaken _ happly hcompact =>
    have h₁ := htaken.keeps hI hstep hcall
    have hdrain : Op.drain.exec s₁.node = .ok (.messages s₁.node.outbound) s₁.afterSend.node := rfl
    refine hcompact.keeps ?_ hcall
    rw [applied_node]
    exact hcall happly trivial (hcall hdrain trivial h₁)

/-- After a round nothing is queued. -/
theorem Round.silent (hr : Round s input true s') : s'.node.outbound = [] := by
  cases hr with
  | completed _ _ happly hcompact =>
    obtain ⟨_, n, hrun, hout⟩ := bind_eq_ok.mp happly
    cases hout
    obtain ⟨rfl, rfl⟩ := Raft.applyEntries_ok hrun
    generalize hs₂ : applied _ _ _ = s₂ at hcompact
    have hnode : s₂.node.outbound = [] := by
      rw [← hs₂, applied_node]
      rfl
    cases hcompact with
    | kept => exact hnode
    | called _ hexec =>
      obtain ⟨_, n, hrun, hout⟩ := bind_eq_ok.mp hexec
      cases hout
      cases Raft.compact_ok hrun with
      | refused => exact hnode
      | stopped hstopped => exact hstopped.silent
      | compacted => exact hnode

/-! ## The calls of a start -/

omit [StableStore σ] in
theorem replayEntries_frame {entries : List Entry} {err : Option OpenError}
    (h : replayEntries entries s = .ok err s') :
    s' = { s with machine := s'.machine, output := s'.output } := by
  induction entries generalizing s with
  | nil =>
    cases h
    rfl
  | cons entry entries ih =>
    rw [replayEntries_cons] at h
    split at h
    · cases h
      rfl
    · exact (ih h).trans rfl

/-- Rebuilding the machine asks the node for what is committed, unless the snapshot is
refused, and leaves everything else as it was. -/
theorem replay_frame {recovery : Recovery} {err : Option OpenError}
    (h : replay recovery s = .ok err s') :
    s' = { s with machine := s'.machine, output := s'.output } ∨
    ∃ out n, Op.applyEntries.exec s.node = .ok out n ∧
      s' = { s.called .applyEntries n with machine := s'.machine, output := s'.output } := by
  have happly : ∀ {t t' : Server σ}, (do
      replayEntries (entriesOf (← call .applyEntries)) : ServerM σ _) t = .ok err t' →
      ∃ out n, Op.applyEntries.exec t.node = .ok out n ∧
        t' = { t.called .applyEntries n with machine := t'.machine, output := t'.output } := by
    intro t t' h
    obtain ⟨out, t₁, hcall, h⟩ := bind_eq_ok.mp h
    obtain ⟨n, hexec, rfl⟩ := call_eq_ok.mp hcall
    exact ⟨out, n, hexec, replayEntries_frame h⟩
  unfold replay at h
  split at h
  · cases hmachine : Machine.restore recovery.snapshot.state with
    | none =>
      simp only [hmachine] at h
      cases h
      exact Or.inl rfl
    | some machine =>
      simp only [hmachine] at h
      exact Or.inr (happly (t := { s with machine := machine }) h)
  · exact Or.inr (happly h)

theorem openServer_ok {config : Config} {store : σ} {recovery : Recovery} {err : Option OpenError}
    (h : openServer config store recovery = .ok (s, err)) : ∃ n,
      Raft.recover config.id config.peerIDs config.timeout store recovery = .ok n ∧
      replay recovery { config := config, node := n } = .ok err s := by
  cases hrec : Raft.recover config.id config.peerIDs config.timeout store recovery with
  | error e =>
    unfold openServer at h
    rw [hrec] at h
    cases h
  | ok n =>
    rw [openServer_of_recover hrec] at h
    refine ⟨n, rfl, ?_⟩
    split at h
    · rename_i hreplay
      cases h
      exact hreplay
    · cases h

omit [StableStore σ] in
theorem Mild.opLocal {W : Watch} {n : Node σ} {op : Op} (hop : Mild op)
    (hfree : ∀ i e, ¬ W.keep i e) : Raft.OpLocal W n op := by
  cases op with
  | applyEntries => exact fun i e hk => absurd hk (hfree i e)
  | tick => trivial
  | proposeRequest => trivial
  | startReadIndex => trivial
  | compact => trivial
  | drain => trivial
  | step | propose | proposeJoint | proposeFinal | transferLeadership => exact hop.elim

end Server

namespace Host

/-! ## Runs -/

variable [OpenStore σ] {W : Watch} {h h' : Host σ} {s₀ s s' : Server σ} {ev : Event}
variable {events : List Event} {config : Server.Config} {store : σ}

instance (h : Host σ) (P : Server σ → Prop) [DecidablePred P] :
    Decidable (∀ s, h = .up s → P s) :=
  match h with
  | .up s => decidable_of_iff (P s) ⟨fun h s' hs => by cases hs; exact h, fun h => h s rfl⟩
  | .absent => isTrue fun _ hs => nomatch hs
  | .ended _ => isTrue fun _ hs => nomatch hs

instance (h : Host σ) (P : Server σ → Prop) [DecidablePred P] :
    Decidable (∃ s, h = .up s ∧ P s) :=
  match h with
  | .up s => decidable_of_iff (P s) ⟨fun h => ⟨s, rfl, h⟩, fun ⟨_, hs, h⟩ => by cases hs; exact h⟩
  | .absent => isFalse fun ⟨_, hs, _⟩ => nomatch hs
  | .ended _ => isFalse fun ⟨_, hs, _⟩ => nomatch hs

/-- The messages that a server takes while its node runs meet a condition. -/
def Meets (q : Server σ → Message → Prop) (h : Host σ) : Event → Prop
  | .input (.message m) => ∀ s, h = .up s → s.node.faulted = false → q s m
  | _ => True

instance (q : Server σ → Message → Prop) [∀ s m, Decidable (q s m)] (h : Host σ) (ev : Event) :
    Decidable (h.Meets q ev) := by
  unfold Meets
  split <;> infer_instance

omit [OpenStore σ] in
theorem Meets.mono {q q' : Server σ → Message → Prop} (hm : h.Meets q ev)
    (himp : ∀ s m, q s m → q' s m) : h.Meets q' ev := by
  cases ev with
  | restart config => trivial
  | input input =>
    cases input with
    | message m => exact fun s hs hf => himp s m (hm s hs hf)
    | request incoming => trivial
    | tick => trivial

/-- What holds of the servers that are started and is kept by rounds holds of every server
that runs. -/
theorem run_server {p : Host σ → Event → Prop} {I : Server σ → Prop} (hs : I s₀)
    (hround : ∀ s input s', I s → p (.up s) (.input input) →
      Server.loopOnce input s.fresh = .ok true s' → I s')
    (hstart : ∀ config store recovery s', Server.openServer config store recovery = .ok (s', none) →
      I s')
    (hp : Runs.Always next p (.up s₀) events)
    (hrun : Runs.run next (.up s₀) events = some (.up s)) : I s := by
  refine Runs.run_invariant (I := fun h : Host σ => ∀ s, h = .up s → I s) ?_ ?_ hp hrun s rfl
  · rintro h ev h' hI hp hnext s' rfl
    cases passed_of_some hnext with
    | completed hup hloop =>
      subst hup
      exact hround _ _ s' (hI _ rfl) hp hloop
    | started _ _ _ hserver => exact hstart _ _ _ s' hserver
  · rintro s hup
    cases hup
    exact hs

omit [OpenStore σ] in
theorem new_ok (hnew : Server.new config store = .ok s₀) : ∃ n,
    Raft.newNodeWithStore config.id config.peerIDs config.timeout store = .ok n ∧
      s₀ = { config := config, node := n } := by
  unfold Server.new at hnew
  cases hn : Raft.newNodeWithStore config.id config.peerIDs config.timeout store with
  | error e =>
    rw [hn] at hnew
    cases hnew
  | ok n =>
    rw [hn] at hnew
    cases hnew
    exact ⟨n, rfl, rfl⟩

/-- A server that was started has a node that is local to it, has nothing to send, and
owes no answer. -/
theorem start_local {recovery : Recovery} {err : Option Server.OpenError}
    (hfree : ∀ i e, ¬ W.keep i e) (hopen : Server.openServer config store recovery = .ok (s, err)) :
    (Safe W s.node ∧ s.node.outbound = []) ∧ (s.pending = fun _ => none) ∧ s.reads = [] := by
  obtain ⟨n, hrec, hreplay⟩ := Server.openServer_ok hopen
  have hsafe : Safe W n := Raft.local_recover hfree hrec
  have hsilent := Raft.recover_silent hrec
  rcases Server.replay_frame hreplay with hs | ⟨out, n', hexec, hs⟩
  · rw [hs]
    exact ⟨⟨hsafe, hsilent⟩, rfl, rfl⟩
  · have hmild : Server.Mild .applyEntries := trivial
    have hsafe' := Raft.exec_safe hsafe (fun _ => hmild.opLocal hfree) hexec
    obtain ⟨_, _, hrun, hout⟩ := Server.bind_eq_ok.mp hexec
    cases hout
    obtain ⟨rfl, rfl⟩ := Raft.applyEntries_ok hrun
    rw [hs]
    exact ⟨⟨hsafe', hsilent⟩, rfl, rfl⟩

/-- The node of a server that runs keeps what is local to it, and between two rounds it
has nothing to send. -/
theorem run_local (hfree : ∀ i e, ¬ W.keep i e) (hnew : Server.new config store = .ok s₀)
    (hmeets : Runs.Always next (Meets fun s => Raft.StepLocal W s.node) (.up s₀) events)
    (hrun : Runs.run next (.up s₀) events = some (.up s)) :
    Safe W s.node ∧ s.node.outbound = [] := by
  refine run_server (I := fun s => Safe W s.node ∧ s.node.outbound = []) ?_ ?_ ?_ hmeets hrun
  · obtain ⟨n, hn, rfl⟩ := new_ok hnew
    obtain ⟨_, _, rfl⟩ := Raft.newNodeWithStore_cases hn
    exact ⟨Or.inr (Raft.local_new hfree hn), rfl⟩
  · intro s input s' hI hp hloop
    have hr := Server.round_of_ok hloop
    refine ⟨hr.keeps hI.1 ?_ fun hexec hmild hI =>
      Raft.exec_safe hI (fun _ => hmild.opLocal hfree) hexec, hr.silent⟩
    rintro m out n rfl hexec
    exact Raft.exec_safe hI.1 (fun hf => show Raft.OpLocal W _ (.step m) from fun _ => hp s rfl hf) hexec
  · intro config store recovery s' hopen
    exact (start_local hfree hopen).1

end Host

end Promtact
