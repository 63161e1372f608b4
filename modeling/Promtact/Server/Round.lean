import Promtact.GhostState
import Promtact.Server.Loop

/-!
# What a round does

Sending, applying and completing reads never fail by themselves, so each is a function of
the server (`afterSend`, `afterEntry`, `afterReads`). `Handled` lists what can happen to a
request, and `Round` puts a round together: the input is taken, and unless the node has
a storage error by then, the node applies, the log may be compacted, and the reads that
are confirmed are answered. `Panicked` lists the calls in which a round can panic.
-/

namespace Promtact.Server

open Function (update)
open GhostState (bind_of_ok)
open Protocol (ClientRequest ClientResponse Status)
open Raft (Node NodeM Message Word Entry CommandOp Op Panic StableStore Recovery)
open StateMachine (Machine ApplyError)

variable {σ α β : Type}

/-! ## Programs in sequence -/

section Sequence

variable {ε S : Type} {f : EStateM ε S α} {k : α → EStateM ε S β} {s s' : S} {b : β} {e : ε}

theorem bind_eq_ok :
    (f >>= k) s = .ok b s' ↔ ∃ a s₁, f s = .ok a s₁ ∧ k a s₁ = .ok b s' := by
  show EStateM.bind f k s = _ ↔ _
  unfold EStateM.bind
  cases hf : f s with
  | ok a s₁ => simp
  | error e s₁ => simp

theorem bind_eq_error : (f >>= k) s = .error e s' ↔
    f s = .error e s' ∨ ∃ a s₁, f s = .ok a s₁ ∧ k a s₁ = .error e s' := by
  show EStateM.bind f k s = _ ↔ _
  unfold EStateM.bind
  cases hf : f s with
  | ok a s₁ => simp
  | error e' s₁ => simp

theorem get_bind (k : S → EStateM ε S β) : (get >>= k) s = k s s := rfl

end Sequence

/-! ## Output -/

theorem forM_emit {ι : Type} (g : ι → Output) (l : List ι) (s : Server σ) :
    (l.forM fun x => emit (g x)) s = .ok ⟨⟩ { s with output := s.output ++ l.map g } := by
  induction l generalizing s with
  | nil => simp only [List.map_nil, List.append_nil]; rfl
  | cons x l ih =>
    have hemit : emit (g x) s = .ok ⟨⟩ { s with output := s.output ++ [g x] } := rfl
    refine (bind_of_ok hemit).trans ((ih _).trans ?_)
    simp

/-! ## Applying -/

/-- What the waiters of an entry get. -/
def responseTo (s : Server σ) (entry : Entry) : ClientResponse where
  status := if (s.machine.apply entry).1.isOk then .ok else .invalid
  leader := BitVec.ofNat 32 s.node.leader
  requestID := entry.requestID
  value := valueOf (s.machine.apply entry).1
  commit := BitVec.ofNat 64 s.node.commit

def entryKey (entry : Entry) : PendingKey := ⟨entry.clientID, entry.requestID⟩

def waitersOf (s : Server σ) (key : PendingKey) : List Nat := (s.pending key).getD []

/-- The entry is applied, and those who wait for it are answered. -/
def afterEntry (s : Server σ) (entry : Entry) : Server σ := { s with
  machine := (s.machine.apply entry).2
  pending := update s.pending (entryKey entry) none
  output := s.output ++ .applied entry ::
    (s.waitersOf (entryKey entry)).map (.replied · (s.responseTo entry)) }

/-- The waiters are looked up when the machine has the entry. -/
theorem applyEntry_run (entry : Entry) (s : Server σ) : applyEntry entry s =
    (match s.pending (entryKey entry) with
      | none => pure ()
      | some waiters => do
        waiters.forM fun waiter => emit (.replied waiter (s.responseTo entry))
        modify fun s => { s with pending := update s.pending (entryKey entry) none } :
      ServerM σ Unit)
      { s with machine := (s.machine.apply entry).2, output := s.output ++ [.applied entry] } := rfl

theorem applyEntry_eq (entry : Entry) (s : Server σ) :
    applyEntry entry s = .ok ⟨⟩ (s.afterEntry entry) := by
  cases hkey : s.pending (entryKey entry) with
  | none =>
    have hpending : update s.pending (entryKey entry) none = s.pending := by
      rw [← hkey]
      exact Function.update_eq_self (entryKey entry) s.pending
    unfold afterEntry waitersOf
    rw [hpending, applyEntry_run, hkey]
    rfl
  | some waiters =>
    unfold afterEntry waitersOf
    rw [applyEntry_run, hkey]
    refine (bind_of_ok (forM_emit _ _ _)).trans ?_
    show EStateM.Result.ok _ _ = _
    simp only [Option.getD_some, List.append_assoc, List.cons_append, List.nil_append]

def afterEntries (s : Server σ) (entries : List Entry) : Server σ := entries.foldl afterEntry s

theorem forM_applyEntry (entries : List Entry) (s : Server σ) :
    entries.forM applyEntry s = .ok ⟨⟩ (s.afterEntries entries) := by
  induction entries generalizing s with
  | nil => rfl
  | cons entry entries ih => exact (bind_of_ok (applyEntry_eq entry s)).trans (ih _)

/-- Applying changes the machine, what waits for it, and what was sent. -/
theorem afterEntries_eq (s : Server σ) (entries : List Entry) :
    s.afterEntries entries = { s with
      machine := s.machine.applyAll entries
      pending := (s.afterEntries entries).pending
      output := (s.afterEntries entries).output } := by
  induction entries generalizing s with
  | nil => rfl
  | cons entry entries ih => exact ih _

/-- An applied request waits no more. -/
theorem afterEntries_pending (s : Server σ) (entries : List Entry) (key : PendingKey) :
    (s.afterEntries entries).pending key =
      if key ∈ entries.map entryKey then none else s.pending key := by
  induction entries generalizing s with
  | nil => simp [afterEntries]
  | cons entry entries ih =>
    show ((s.afterEntry entry).afterEntries entries).pending key = _
    rw [ih]
    by_cases hkey : key = entryKey entry
    · subst hkey
      simp [afterEntry]
    · simp [afterEntry, hkey]

/-! ## Reads -/

/-- The answer to a read that can be given. -/
def answerTo (s : Server σ) (read : PendingRead) : Option ClientResponse := do
  let index ← s.node.readIndexOf read.context
  if s.node.applied < index then none
  else
    match s.machine.get read.request.value.key with
    | some value => some (s.response .ok read.request.value value)
    | none => some (s.response .notFound read.request.value 0)

def afterReads (s : Server σ) : Server σ := { s with
  reads := s.reads.filter fun read => (s.answerTo read).isNone
  output := s.output ++ s.reads.filterMap fun read =>
    (s.answerTo read).map (.replied read.request.reply) }

theorem completeRead_eq (read : PendingRead) (s : Server σ) :
    completeRead read s = .ok (s.answerTo read).isNone { s with
      output := s.output ++ ((s.answerTo read).map (Output.replied read.request.reply)).toList } := by
  unfold completeRead answerTo
  rw [get_bind]
  cases s.node.readIndexOf read.context with
  | none => simp only [Option.bind_eq_bind, Option.bind_none, Option.map_none, Option.toList_none,
      List.append_nil]; rfl
  | some index =>
    show (if s.node.applied < index then (pure true : ServerM σ Bool) else _) s = _
    simp only [Option.bind_eq_bind, Option.bind_some]
    split
    · simp only [Option.map_none, Option.toList_none, List.append_nil]
      rfl
    · cases s.machine.get read.request.value.key with
      | none => rfl
      | some value => rfl

theorem filterM_completeRead (reads kept : List PendingRead) (s : Server σ) :
    List.filterAuxM completeRead reads kept s = .ok
      ((reads.filter fun read => (s.answerTo read).isNone).reverse ++ kept) { s with
        output := s.output ++ reads.filterMap fun read =>
          (s.answerTo read).map (Output.replied read.request.reply) } := by
  induction reads generalizing kept s with
  | nil => simp only [List.filterMap_nil, List.append_nil]; rfl
  | cons read reads ih =>
    refine (bind_of_ok (completeRead_eq read s)).trans ((ih _ _).trans ?_)
    have hsame : ∀ read', ({ s with output := s.output ++ ((s.answerTo read).map
        (Output.replied read.request.reply)).toList } : Server σ).answerTo read' =
        s.answerTo read' := fun _ => rfl
    simp only [hsame]
    cases hread : s.answerTo read <;> simp [hread]

theorem completeReads_eq (s : Server σ) : completeReads s = .ok ⟨⟩ s.afterReads := by
  have hfilter : s.reads.filterM completeRead s = .ok
      (s.reads.filter fun read => (s.answerTo read).isNone) { s with
        output := s.output ++ s.reads.filterMap fun read =>
          (s.answerTo read).map (Output.replied read.request.reply) } := by
    refine (bind_of_ok (filterM_completeRead s.reads [] s)).trans ?_
    simp only [List.append_nil, List.reverse_reverse]
    rfl
  unfold completeReads
  rw [get_bind]
  exact (bind_of_ok hfilter).trans rfl

section Calls

variable [StableStore σ]

/-- The node was called and did not panic. -/
def called (s : Server σ) (op : Op) (n : Node σ) : Server σ :=
  { s with node := n, calls := s.calls ++ [op] }

variable {s s' : Server σ} {incoming : Request} {input : Input}

theorem call_eq_ok {op : Op} {out : Raft.Output} :
    call op s = .ok out s' ↔ ∃ n, op.exec s.node = .ok out n ∧ s' = s.called op n := by
  unfold call
  cases op.exec s.node with
  | ok out' n =>
    simp only [EStateM.Result.ok.injEq]
    constructor
    · rintro ⟨rfl, rfl⟩
      exact ⟨n, ⟨rfl, rfl⟩, rfl⟩
    · rintro ⟨_, ⟨rfl, rfl⟩, rfl⟩
      exact ⟨rfl, rfl⟩
  | error e n => simp

/-- What the node has queued is sent. -/
def afterSend (s : Server σ) : Server σ :=
  { s.called .drain { s.node with outbound := [] } with
    output := s.output ++ s.node.outbound.map .sent }

theorem sendAll_eq (s : Server σ) : sendAll s = .ok ⟨⟩ s.afterSend := by
  have hdrain : call .drain s = .ok (.messages s.node.outbound)
      (s.called .drain { s.node with outbound := [] }) := rfl
  exact (bind_of_ok hdrain).trans (forM_emit Output.sent s.node.outbound _)

/-! ## Requests -/

def answered (s : Server σ) (incoming : Request) (status : Status) (value : Word) : Server σ :=
  { s with output := s.output ++
    [.replied incoming.reply (s.response status incoming.value value)] }

def waiting (s : Server σ) (key : PendingKey) (waiters : List Nat) : Server σ :=
  { s with pending := update s.pending key (some waiters) }

def proposal (req : ClientRequest) (operation : CommandOp) : Op :=
  .proposeRequest operation req.clientID req.requestID req.key req.value

/-- What can happen to a request. -/
inductive Handled (s : Server σ) (incoming : Request) : Server σ → Prop
  | status (hop : incoming.value.operation = .status) :
    Handled s incoming (s.answered incoming .ok 0)
  | notLeader (hstate : s.node.state ≠ .leader) :
    Handled s incoming (s.answered incoming .notLeader 0)
  | readBusy (hop : incoming.value.operation = .get) :
    Handled s incoming (s.answered incoming .busy 0)
  | readRefused {n : Node σ} {out : Raft.Output} (hop : incoming.value.operation = .get)
    (hcall : (Op.startReadIndex (readContextOf incoming.value)).exec s.node = .ok out n)
    (hout : out ≠ .accepted true) (hreads : s.reads = []) : Handled s incoming
      ((s.called (.startReadIndex (readContextOf incoming.value)) n).answered incoming .busy 0)
  | readParked {n : Node σ} (hop : incoming.value.operation = .get)
    (hstate : s.node.state = .leader) (hreads : s.reads = [])
    (hcall : (Op.startReadIndex (readContextOf incoming.value)).exec s.node =
      .ok (.accepted true) n) : Handled s incoming
      { s.called (.startReadIndex (readContextOf incoming.value)) n with
        reads := [⟨readContextOf incoming.value, incoming⟩] }
  | invalid (hop : incoming.value.operation ≠ .get) :
    Handled s incoming (s.answered incoming .invalid 0)
  | cached {result : StateMachine.Result} (hop : incoming.value.operation ≠ .get)
    (hcached : s.machine.cached incoming.value.clientID incoming.value.requestID =
      .ok (some result)) : Handled s incoming (s.answered incoming .ok result.value)
  | joined {waiters : List Nat} (hop : incoming.value.operation ≠ .get)
    (hwaiters : s.pending (keyOf incoming.value) = some waiters) :
    Handled s incoming (s.waiting (keyOf incoming.value) (waiters ++ [incoming.reply]))
  | refused {operation : CommandOp} {n : Node σ} {out : Raft.Output}
    (hop : commandOf incoming.value = some operation) (hstate : s.node.state = .leader)
    (hids : incoming.value.clientID ≠ 0 ∧ incoming.value.requestID ≠ 0)
    (hcall : (proposal incoming.value operation).exec s.node = .ok out n)
    (hout : out ≠ .accepted true)
    (hcached : s.machine.cached incoming.value.clientID incoming.value.requestID = .ok none) :
    Handled s incoming
      ((s.called (proposal incoming.value operation) n).answered incoming .busy 0)
  | proposed {operation : CommandOp} {n : Node σ}
    (hop : commandOf incoming.value = some operation) (hstate : s.node.state = .leader)
    (hids : incoming.value.clientID ≠ 0 ∧ incoming.value.requestID ≠ 0)
    (hcached : s.machine.cached incoming.value.clientID incoming.value.requestID = .ok none)
    (hcall : (proposal incoming.value operation).exec s.node = .ok (.accepted true) n) :
    Handled s incoming ((s.called (proposal incoming.value operation) n).waiting
      (keyOf incoming.value) [incoming.reply])

theorem handled_of_get (hop : incoming.value.operation = .get) (hstate : s.node.state = .leader)
    (h : handleGet incoming s = .ok ⟨⟩ s') : Handled s incoming s' := by
  unfold handleGet at h
  rw [get_bind] at h
  split at h
  · cases h
    exact .readBusy hop
  rename_i hreads
  simp only [ne_eq, not_not] at hreads
  dsimp only at h
  split at h
  · cases h
    exact .readBusy hop
  obtain ⟨out, s₁, hcall, h⟩ := bind_eq_ok.mp h
  obtain ⟨n, hexec, rfl⟩ := call_eq_ok.mp hcall
  split at h
  · rename_i hout
    cases h
    exact .readRefused hop hexec hout hreads
  · rename_i hout
    simp only [ne_eq, not_not] at hout
    subst hout
    cases h
    have hparked := Handled.readParked hop hstate hreads hexec
    simpa [called, hreads] using hparked

theorem handled_of_proposal (hstate : s.node.state = .leader)
    (hnot : incoming.value.operation ≠ .get)
    (hids : incoming.value.clientID ≠ 0 ∧ incoming.value.requestID ≠ 0)
    (hcached : s.machine.cached incoming.value.clientID incoming.value.requestID = .ok none)
    (h : proposeMutation incoming s = .ok ⟨⟩ s') : Handled s incoming s' := by
  unfold proposeMutation at h
  cases hop : commandOf incoming.value with
  | none =>
    simp only [hop] at h
    cases h
    exact .invalid hnot
  | some operation =>
    simp only [hop] at h
    obtain ⟨out, s₁, hcall, h⟩ := bind_eq_ok.mp h
    obtain ⟨n, hexec, rfl⟩ := call_eq_ok.mp hcall
    split at h
    · rename_i hout
      cases h
      exact .refused hop hstate hids hexec hout hcached
    · rename_i hout
      simp only [ne_eq, not_not] at hout
      subst hout
      cases h
      exact .proposed hop hstate hids hcached hexec

theorem handled_of_mutation (hstate : s.node.state = .leader)
    (hnot : incoming.value.operation ≠ .get)
    (h : handleMutation incoming s = .ok ⟨⟩ s') : Handled s incoming s' := by
  unfold handleMutation at h
  split at h
  · cases h
    exact .invalid hnot
  rename_i hids
  replace hids : incoming.value.clientID ≠ 0 ∧ incoming.value.requestID ≠ 0 := by
    simpa [not_or] using hids
  rw [get_bind] at h
  cases hcached : s.machine.cached incoming.value.clientID incoming.value.requestID with
  | error e =>
    simp only [hcached] at h
    cases h
    exact .invalid hnot
  | ok result =>
    simp only [hcached] at h
    cases result with
    | some result =>
      cases h
      exact .cached hnot hcached
    | none =>
      dsimp only at h
      rw [get_bind] at h
      cases hwaiters : s.pending (keyOf incoming.value) with
      | some waiters =>
        simp only [hwaiters] at h
        cases h
        exact .joined hnot hwaiters
      | none =>
        simp only [hwaiters] at h
        exact handled_of_proposal hstate hnot hids hcached h

theorem handled_of_ok (h : handleRequest incoming s = .ok ⟨⟩ s') : Handled s incoming s' := by
  unfold handleRequest at h
  split at h
  · rename_i hop
    cases h
    exact .status hop
  rw [get_bind] at h
  split at h
  · rename_i hstate
    cases h
    exact .notLeader hstate
  rename_i hstate
  simp only [ne_eq, not_not] at hstate
  split at h
  · rename_i hop
    exact handled_of_get hop hstate h
  · rename_i hop
    exact handled_of_mutation hstate hop h

/-! ## Rounds -/

/-- The server before the node applies. -/
inductive Taken (s : Server σ) : Input → Server σ → Prop
  | message {m : Message} {n : Node σ} (hcall : (Op.step m).exec s.node = .ok .nothing n) :
    Taken s (.message m) (s.called (.step m) n)
  | tick {n : Node σ} (hcall : Op.tick.exec s.node = .ok .nothing n) :
    Taken s .tick (s.called .tick n)
  | request {incoming : Request} {s' : Server σ} (h : Handled s incoming s') :
    Taken s (.request incoming) s'

theorem taken_of_ok (h : takeInput input s = .ok ⟨⟩ s') : Taken s input s' := by
  cases input with
  | message m =>
    obtain ⟨out, s₁, hcall, h⟩ := bind_eq_ok.mp h
    obtain ⟨n, hexec, rfl⟩ := call_eq_ok.mp hcall
    cases h
    have hout : out = .nothing := by
      obtain ⟨_, _, _, hout⟩ := bind_eq_ok.mp hexec
      cases hout
      rfl
    subst hout
    exact .message hexec
  | tick =>
    obtain ⟨out, s₁, hcall, h⟩ := bind_eq_ok.mp h
    obtain ⟨n, hexec, rfl⟩ := call_eq_ok.mp hcall
    cases h
    have hout : out = .nothing := by
      obtain ⟨_, _, _, hout⟩ := bind_eq_ok.mp hexec
      cases hout
      rfl
    subst hout
    exact .tick hexec
  | request incoming => exact .request (handled_of_ok h)

/-- The server compacts once enough was applied. -/
def compacts (s : Server σ) : Prop :=
  s.config.snapshotEntries ≠ 0 ∧ s.config.snapshotEntries ≤ s.node.applied - s.node.baseIndex

instance (s : Server σ) : Decidable s.compacts := by
  unfold compacts
  infer_instance

/-- The server behind the compaction, if there is one. -/
inductive Compacted (s : Server σ) : Server σ → Prop
  | kept (hno : ¬ s.compacts) : Compacted s s
  | called {n : Node σ} {out : Raft.Output} (hyes : s.compacts)
    (hcall : (Op.compact s.node.applied s.machine.snapshot).exec s.node = .ok out n) :
    Compacted s (s.called (.compact s.node.applied s.machine.snapshot) n)

theorem compacted_of_ok (h : compactApplied s = .ok ⟨⟩ s') : Compacted s s' := by
  unfold compactApplied at h
  rw [get_bind] at h
  split at h
  · rename_i hyes
    obtain ⟨out, s₁, hcall, h⟩ := bind_eq_ok.mp h
    obtain ⟨n, hexec, rfl⟩ := call_eq_ok.mp hcall
    cases h
    exact .called hyes hexec
  · rename_i hno
    cases h
    exact .kept hno

/-- What the node hands out, applied to the machine. -/
def applied (s : Server σ) (n : Node σ) (entries : List Entry) : Server σ :=
  (s.called .applyEntries n).afterEntries entries

/-- A round of the loop that does not panic. -/
inductive Round (s : Server σ) (input : Input) : Bool → Server σ → Prop
  | ended {s₁ : Server σ} (htaken : Taken s input s₁) (herr : s₁.node.storageErr ≠ none) :
    Round s input false s₁
  | completed {s₁ s₂ : Server σ} {entries : List Entry} {n : Node σ} (htaken : Taken s input s₁)
    (hrunning : s₁.node.storageErr = none)
    (happly : Op.applyEntries.exec s₁.afterSend.node = .ok (.entries entries) n)
    (hcompact : Compacted (s₁.afterSend.applied n entries) s₂) :
    Round s input true s₂.afterReads

theorem round_of_ok {more : Bool} (h : loopOnce input s = .ok more s') :
    Round s input more s' := by
  obtain ⟨_, s₁, htaken, h⟩ := bind_eq_ok.mp h
  replace htaken := taken_of_ok htaken
  rw [get_bind] at h
  split at h
  · rename_i herr
    cases h
    exact .ended htaken (Option.isSome_iff_ne_none.mp herr)
  rename_i herr
  rw [bind_of_ok (sendAll_eq s₁)] at h
  obtain ⟨_, s₂, happly, h⟩ := bind_eq_ok.mp h
  rw [bind_of_ok (completeReads_eq s₂)] at h
  cases h
  obtain ⟨out, s₃, hcall, hrest⟩ := bind_eq_ok.mp happly
  obtain ⟨n, hexec, rfl⟩ := call_eq_ok.mp hcall
  obtain ⟨entries, _, _, hout⟩ := bind_eq_ok.mp hexec
  cases hout
  rw [bind_of_ok (forM_applyEntry _ _)] at hrest
  exact .completed htaken (by simpa using herr) hexec (compacted_of_ok hrest)

/-! ## Opening -/

/-- The entry is applied while the log is replayed. -/
def replayed (s : Server σ) (entry : Entry) : Server σ := { s with
  machine := (s.machine.apply entry).2
  output := s.output ++ [.applied entry] }

omit [StableStore σ] in
theorem replayEntries_cons (entry : Entry) (entries : List Entry) (s : Server σ) :
    replayEntries (entry :: entries) s =
      match (s.machine.apply entry).1 with
      | .error e => .ok (some (.apply e)) (s.replayed entry)
      | .ok _ => replayEntries entries (s.replayed entry) := by
  rw [replayEntries, get_bind]
  show (match (s.machine.apply entry).1 with
    | .error e => pure (some (OpenError.apply e))
    | .ok _ => replayEntries entries : ServerM σ _) (s.replayed entry) = _
  cases (s.machine.apply entry).1 with
  | error e => rfl
  | ok result => rfl

theorem openServer_of_recover {config : Config} {store : σ} {recovery : Recovery} {n : Node σ}
    (hn : Raft.recover config.id config.peerIDs config.timeout store recovery = .ok n) :
    openServer config store recovery = match replay recovery { config := config, node := n } with
      | .ok err s => .ok (s, err)
      | .error e _ => .error e := by
  unfold openServer
  rw [hn]
  rfl

/-! ## Panics -/

theorem call_eq_error {op : Op} {e : Panic} :
    call op s = .error e s' ↔ ∃ n, op.exec s.node = .error e n ∧ s' = s.called op n := by
  unfold call
  cases op.exec s.node with
  | ok out n => simp
  | error e' n =>
    simp only [EStateM.Result.error.injEq]
    constructor
    · rintro ⟨rfl, rfl⟩
      exact ⟨n, ⟨rfl, rfl⟩, rfl⟩
    · rintro ⟨_, ⟨rfl, rfl⟩, rfl⟩
      exact ⟨rfl, rfl⟩

/-- A round in which the node panics. -/
inductive Panicked (s : Server σ) : Input → Server σ → Prop
  | message {m : Message} {e : Panic} {n : Node σ}
    (hcall : (Op.step m).exec s.node = .error e n) : Panicked s (.message m) (s.called (.step m) n)
  | tick {e : Panic} {n : Node σ} (hcall : Op.tick.exec s.node = .error e n) :
    Panicked s .tick (s.called .tick n)
  | read {incoming : Request} {e : Panic} {n : Node σ}
    (hop : incoming.value.operation = .get)
    (hcall : (Op.startReadIndex (readContextOf incoming.value)).exec s.node = .error e n) :
    Panicked s (.request incoming) (s.called (.startReadIndex (readContextOf incoming.value)) n)
  | proposal {incoming : Request} {operation : CommandOp} {e : Panic} {n : Node σ}
    (hop : commandOf incoming.value = some operation)
    (hcall : (proposal incoming.value operation).exec s.node = .error e n)
    (hcached : s.machine.cached incoming.value.clientID incoming.value.requestID = .ok none) :
    Panicked s (.request incoming) (s.called (proposal incoming.value operation) n)
  | apply {input : Input} {s₁ : Server σ} {e : Panic} {n : Node σ} (htaken : Taken s input s₁)
    (hcall : Op.applyEntries.exec s₁.afterSend.node = .error e n) :
    Panicked s input (s₁.afterSend.called .applyEntries n)
  | compact {input : Input} {s₁ s₂ : Server σ} {entries : List Entry} {e : Panic} {n n' : Node σ}
    (htaken : Taken s input s₁)
    (happly : Op.applyEntries.exec s₁.afterSend.node = .ok (.entries entries) n)
    (hs₂ : s₂ = s₁.afterSend.applied n entries)
    (hcall : (Op.compact s₂.node.applied s₂.machine.snapshot).exec s₂.node = .error e n') :
    Panicked s input (s₂.called (.compact s₂.node.applied s₂.machine.snapshot) n')

theorem panicked_of_get {e : Panic} (hop : incoming.value.operation = .get)
    (h : handleGet incoming s = .error e s') : Panicked s (.request incoming) s' := by
  unfold handleGet at h
  rw [get_bind] at h
  split at h
  · cases h
  dsimp only at h
  split at h
  · cases h
  rcases bind_eq_error.mp h with hcall | ⟨out, s₁, _, h⟩
  · obtain ⟨n, hexec, rfl⟩ := call_eq_error.mp hcall
    exact .read hop hexec
  · split at h <;> cases h

theorem panicked_of_proposal {e : Panic}
    (hcached : s.machine.cached incoming.value.clientID incoming.value.requestID = .ok none)
    (h : proposeMutation incoming s = .error e s') :
    Panicked s (.request incoming) s' := by
  unfold proposeMutation at h
  cases hop : commandOf incoming.value with
  | none =>
    simp only [hop] at h
    cases h
  | some operation =>
    simp only [hop] at h
    rcases bind_eq_error.mp h with hcall | ⟨out, s₁, _, h⟩
    · obtain ⟨n, hexec, rfl⟩ := call_eq_error.mp hcall
      exact .proposal hop hexec hcached
    · split at h <;> cases h

theorem panicked_of_mutation {e : Panic} (h : handleMutation incoming s = .error e s') :
    Panicked s (.request incoming) s' := by
  unfold handleMutation at h
  split at h
  · cases h
  rw [get_bind] at h
  cases hcached : s.machine.cached incoming.value.clientID incoming.value.requestID with
  | error e =>
    simp only [hcached] at h
    cases h
  | ok result =>
    simp only [hcached] at h
    cases result with
    | some result => cases h
    | none =>
      dsimp only at h
      rw [get_bind] at h
      cases hwaiters : s.pending (keyOf incoming.value) with
      | some waiters =>
        simp only [hwaiters] at h
        cases h
      | none =>
        simp only [hwaiters] at h
        exact panicked_of_proposal hcached h

theorem panicked_of_request {e : Panic} (h : handleRequest incoming s = .error e s') :
    Panicked s (.request incoming) s' := by
  unfold handleRequest at h
  split at h
  · cases h
  rw [get_bind] at h
  split at h
  · cases h
  split at h
  · rename_i hop
    exact panicked_of_get hop h
  · exact panicked_of_mutation h

theorem panicked_of_input {e : Panic} (h : takeInput input s = .error e s') :
    Panicked s input s' := by
  cases input with
  | message m =>
    rcases bind_eq_error.mp h with hcall | ⟨_, _, _, h⟩
    · obtain ⟨n, hexec, rfl⟩ := call_eq_error.mp hcall
      exact .message hexec
    · cases h
  | tick =>
    rcases bind_eq_error.mp h with hcall | ⟨_, _, _, h⟩
    · obtain ⟨n, hexec, rfl⟩ := call_eq_error.mp hcall
      exact .tick hexec
    · cases h
  | request incoming => exact panicked_of_request h

theorem panicked_of_error {e : Panic} (h : loopOnce input s = .error e s') :
    Panicked s input s' := by
  rcases bind_eq_error.mp h with htake | ⟨_, s₁, htaken, h⟩
  · exact panicked_of_input htake
  replace htaken := taken_of_ok htaken
  rw [get_bind] at h
  split at h
  · cases h
  rw [bind_of_ok (sendAll_eq s₁)] at h
  rcases bind_eq_error.mp h with happly | ⟨_, s₂, _, h⟩
  · rcases bind_eq_error.mp happly with hcall | ⟨out, s₃, hcall, hrest⟩
    · obtain ⟨n, hexec, rfl⟩ := call_eq_error.mp hcall
      exact .apply htaken hexec
    · obtain ⟨n, hexec, rfl⟩ := call_eq_ok.mp hcall
      obtain ⟨entries, _, _, hout⟩ := bind_eq_ok.mp hexec
      cases hout
      rw [bind_of_ok (forM_applyEntry _ _)] at hrest
      unfold compactApplied at hrest
      rw [get_bind] at hrest
      split at hrest
      · rcases bind_eq_error.mp hrest with hcompact | ⟨_, _, _, hrest⟩
        · obtain ⟨n', hexec', rfl⟩ := call_eq_error.mp hcompact
          exact .compact htaken hexec rfl hexec'
        · cases hrest
      · cases hrest
  · rw [bind_of_ok (completeReads_eq s₂)] at h
    cases h

end Calls

end Promtact.Server
