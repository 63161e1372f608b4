import Promtact.Raft.Progress
import Promtact.Server.Replicas

/-!
# Mutations that are refused

A mutation is refused with `StatusNotLeader` or `StatusBusy`, and a client takes both for a
definite failure. A server that does not lead calls nothing, and a full queue does not
reach the server. A leader that refuses has tried: its node has called the store, and a
call has failed. Where the append fails without an effect, or no call fails, a refused
mutation was never appended anywhere, so that no machine ever applies it.

In `failedProposal` the append is durable and the hard state behind it is not saved. The
server answers that it is busy, ends, and applies the mutation after its restart.
-/

namespace Promtact

open Function (update)
open QuorumLog
open Protocol (ClientRequest ClientResponse Status)
open Raft (Node NodeM Message Word Entry CommandOp Op Disk LWp LawfulStore OpenStore StableStore
  Setting OpSafe)
open StateMachine (Machine Mutates)

variable {σ : Type}

/-! ## A proposal that fails -/

namespace Raft

variable [LawfulStore σ] {s s' : Node σ} {e : Entry}

/-- The node is a quorum of its voters alone. -/
def Node.Alone (s : Node σ) : Prop := (nodeBit s.id >>= s.quorumMask).toOption = some true

/-- The node with one more entry in its log. -/
def Node.extended (s : Node σ) (e : Entry) : Node σ := { s with log := s.log ++ [e] }

/-- What the store answers when the leader proposes the entry. Append takes it, and
SaveHardState then saves the new commit index if the leader is a quorum alone; or Append
fails, and its entry is not in the store. -/
def Node.Answered (s : Node σ) (e : Entry) : Prop :=
  let answer := StableStore.append (s.lastIndex + 1) e s.store
  (answer.1 = none → (s.extended e).Alone → (StableStore.saveHardState
    { term := s.term, votedFor := s.votedFor, commit := (s.extended e).lastIndex } answer.2).1 = none) ∧
  (answer.1 ≠ none → LawfulStore.durable answer.2 = LawfulStore.durable s.store)

instance (s : Node σ) (e : Entry) : Decidable (s.Answered e) := by
  unfold Node.Answered Node.Alone
  infer_instance

/-- An append that fails has not changed what the store holds. -/
theorem lwp_appendLocal_answered (ha : s.Answered e) :
    LWp {} (appendLocal e) (fun ok s' => ok = false → ∃ store err,
      s' = failed s store err ∧ LawfulStore.durable store = LawfulStore.durable s.store) s := by
  refine LWp.bind (LWp.of_get (LWp.bind ?_))
  cases hc : (StableStore.append (s.lastIndex + 1) e s.store).1 with
  | some err =>
    refine LWp.of_ok (tryStore_error hc) (LWp.of_pure fun _ => ⟨_, err, rfl, ha.2 ?_⟩)
    rw [hc]
    exact Option.some_ne_none err
  | none =>
    refine LWp.of_ok (tryStore_ok hc) (LWp.bind (LWp.of_modify ?_))
    refine LWp.bind (lwp_ask False.elim fun own hown => LWp.bind (lwp_ask False.elim fun b hb =>
      LWp.ite (fun _ => LWp.of_pure (nomatch ·)) fun hyes => ?_))
    -- the leader is a quorum alone, so the hard state is saved
    have halone : (s.extended e).Alone := by
      have hb' : (s.extended e).quorumMask own = .ok b := hb
      have hown' : nodeBit (s.extended e).id = .ok own := hown
      have hyes' : b = true := by simpa using hyes
      unfold Node.Alone
      rw [hown']
      show ((s.extended e).quorumMask own).toOption = some true
      rw [hb', hyes']
      rfl
    refine LWp.bind (LWp.of_get (LWp.bind (LWp.of_modify (LWp.bind ?_))))
    refine LWp.of_ok (tryStore_ok (ha.1 hc halone)) (LWp.bind ?_)
    exact lwp_iff.mpr fun _ _ _ => LWp.of_pure (nomatch ·)

/-- A proposal that is refused has left the node alone, or has stopped it without an effect
on what its store holds. -/
theorem proposeRequest_refused {operation : CommandOp} {clientID requestID key value : Word}
    {out : Output} (ha : s.state = .leader → s.Answered { term := s.term, operation := operation
                                                          clientID := clientID, requestID := requestID
                                                          key := key, value := value })
    (hout : out ≠ .accepted true)
    (h : (Op.proposeRequest operation clientID requestID key value).exec s = .ok out s') :
    s' = s ∨ ∃ store err, s' = failed s store err ∧
      LawfulStore.durable store = LawfulStore.durable s.store := by
  refine LWp.elim (W := {}) (Q := fun out s' => out ≠ .accepted true → s' = s ∨
    ∃ store err, s' = failed s store err ∧
      LawfulStore.durable store = LawfulStore.durable s.store) (LWp.bind ?_) h hout
  refine LWp.bind (LWp.of_get (LWp.ite (fun _ => LWp.of_pure (LWp.of_pure fun _ => Or.inl rfl))
    fun hlead => LWp.bind ((lwp_appendLocal_answered (ha ?_)).mono fun ok s₁ hfails => ?_)))
  · simp only [Bool.or_eq_true, not_or, decide_eq_true_eq, ne_eq, not_not] at hlead
    exact hlead.1.1.1.1
  · refine LWp.ite (fun hno => LWp.of_pure (LWp.of_pure fun _ => Or.inr ?_)) fun _ => ?_
    · exact hfails (by simpa using hno)
    · exact LWp.bind (lwp_iff.mpr fun _ _ _ => LWp.of_pure (LWp.of_pure fun hne => absurd rfl hne))

end Raft

/-! ## Where refusals come from -/

namespace Server

/-- The request is answered with one of the two statuses of a refusal. -/
def Output.Refuses (k : Nat) : Output → Prop
  | .replied reply response =>
    reply = k ∧ (response.status = .notLeader ∨ response.status = .busy)
  | _ => False

instance (k : Nat) (o : Output) : Decidable (o.Refuses k) := by
  unfold Output.Refuses
  split <;> infer_instance

variable [StableStore σ] {s s' : Server σ} {input : Input} {incoming : Request} {o : Output} {k : Nat}

/-- The mutation was not proposed: the node does not lead, or it did not accept. -/
def Unproposed (s : Server σ) (request : ClientRequest) : Prop :=
  ∀ operation, commandOf request = some operation → s.node.state ≠ .leader ∨
    ∃ out n, (proposal request operation).exec s.node = .ok out n ∧ out ≠ .accepted true

theorem commandOf_get {request : ClientRequest} (hop : request.operation = .get) :
    commandOf request = none := by
  unfold commandOf
  rw [hop]

/-- Only the request that is being handled is refused, and it is not proposed. -/
theorem Handled.refuses (hh : Handled s incoming s') (hquiet : s.output = [])
    (ho : o ∈ s'.output) (hr : o.Refuses k) : incoming.reply = k ∧ s.Unproposed incoming.value := by
  have hanswer : ∀ {t : Server σ} {status : Status} {value : Word},
      o ∈ (t.answered incoming status value).output → t.output = [] →
      incoming.reply = k ∧ (status = .notLeader ∨ status = .busy) := by
    intro t status value ho ht
    unfold answered at ho
    rw [ht, List.nil_append, List.mem_singleton] at ho
    subst ho
    exact hr
  have hread : ∀ {operation}, incoming.value.operation = .get →
      commandOf incoming.value ≠ some operation := by
    intro operation hop
    rw [commandOf_get hop]
    exact nofun
  cases hh with
  | status => exact absurd (hanswer ho hquiet).2 (by simp)
  | notLeader hstate => exact ⟨(hanswer ho hquiet).1, fun _ _ => Or.inl hstate⟩
  | readBusy hop => exact ⟨(hanswer ho hquiet).1, fun _ hc => absurd hc (hread hop)⟩
  | readRefused hop => exact ⟨(hanswer ho hquiet).1, fun _ hc => absurd hc (hread hop)⟩
  | readParked =>
    rw [show ({ called s _ _ with reads := _ } : Server σ).output = s.output from rfl, hquiet] at ho
    cases ho
  | invalid => exact absurd (hanswer ho hquiet).2 (by simp)
  | cached => exact absurd (hanswer ho hquiet).2 (by simp)
  | joined =>
    rw [show (waiting s _ _).output = s.output from rfl, hquiet] at ho
    cases ho
  | @refused operation n out hop _ _ hexec hout =>
    refine ⟨(hanswer ho hquiet).1, fun operation' hop' => Or.inr ⟨out, n, ?_, hout⟩⟩
    rw [hop] at hop'
    cases hop'
    exact hexec
  | proposed =>
    rw [show (waiting (called s _ _) _ _).output = s.output from rfl, hquiet] at ho
    cases ho

theorem Taken.refuses (ht : Taken s input s') (hquiet : s.output = []) (ho : o ∈ s'.output)
    (hr : o.Refuses k) :
    ∃ incoming, input = .request incoming ∧ incoming.reply = k ∧ s.Unproposed incoming.value := by
  cases ht with
  | message =>
    rw [show (called s _ _).output = s.output from rfl, hquiet] at ho
    cases ho
  | tick =>
    rw [show (called s _ _).output = s.output from rfl, hquiet] at ho
    cases ho
  | request hh => exact ⟨_, rfl, hh.refuses hquiet ho hr⟩

omit [StableStore σ] in
/-- What is sent and applied refuses nothing. -/
theorem refuses_applied {n : Node σ} {entries : List Entry}
    (ho : o ∈ (s.afterSend.applied n entries).output) (hr : o.Refuses k) : o ∈ s.output := by
  rcases applied_output _ _ o ho with hin | ⟨e, _, rfl⟩ | ⟨reply, response, rfl, hstatus⟩
  · rcases List.mem_append.mp hin with hin | hsent
    · exact hin
    · obtain ⟨m, _, rfl⟩ := List.mem_map.mp hsent
      exact hr.elim
  · exact hr.elim
  · rcases hstatus with hs | hs <;> simp [Output.Refuses, hs] at hr

omit [StableStore σ] in
theorem refuses_reads (ho : o ∈ s.afterReads.output) (hr : o.Refuses k) : o ∈ s.output := by
  rcases List.mem_append.mp ho with hin | hread
  · exact hin
  · obtain ⟨read, _, hread⟩ := List.mem_filterMap.mp hread
    obtain ⟨response, hanswer, rfl⟩ := Option.map_eq_some_iff.mp hread
    unfold answerTo at hanswer
    obtain ⟨index, _, hanswer⟩ := Option.bind_eq_some_iff.mp hanswer
    split at hanswer
    · cases hanswer
    · split at hanswer <;> cases hanswer <;> simp [Output.Refuses, Server.response] at hr

/-- A round refuses the request it takes, and nothing else. -/
theorem round_refuses {more : Bool} (hround : Round s input more s' ∨ Panicked s input s')
    (hquiet : s.output = []) (ho : o ∈ s'.output) (hr : o.Refuses k) :
    ∃ incoming, input = .request incoming ∧ incoming.reply = k ∧ s.Unproposed incoming.value := by
  have hsilent : ∀ {op n}, o ∈ (s.called op n).output → False := by
    intro op n ho
    rw [show (called s op n).output = s.output from rfl, hquiet] at ho
    cases ho
  rcases hround with hround | hpanic
  · cases hround with
    | ended htaken => exact htaken.refuses hquiet ho hr
    | @completed s₁ s₂ entries n htaken _ _ hcompact =>
      have happlied : o ∈ (s₁.afterSend.applied n entries).output := by
        cases hcompact with
        | kept => exact refuses_reads ho hr
        | called =>
          have hin := refuses_reads ho hr
          exact hin
      exact htaken.refuses hquiet (refuses_applied happlied hr) hr
  · cases hpanic with
    | message => exact (hsilent ho).elim
    | tick => exact (hsilent ho).elim
    | read => exact (hsilent ho).elim
    | proposal => exact (hsilent ho).elim
    | apply htaken =>
      refine htaken.refuses hquiet ?_ hr
      rcases List.mem_append.mp ho with hin | hsent
      · exact hin
      · obtain ⟨m, _, rfl⟩ := List.mem_map.mp hsent
        exact hr.elim
    | compact htaken _ hs₂ =>
      subst hs₂
      exact htaken.refuses hquiet (refuses_applied ho hr) hr

end Server

namespace Fleet

section Record

variable [OpenStore σ] {voters : Word} {f f' : Fleet σ} {ev : Event} {events : List Event} {id k : Nat}
variable {x : Nat × Server.Output}

/-- The request of an event. -/
def Event.request? : Event → Option ClientRequest
  | .request _ r => some r
  | .refuse _ r => some r
  | _ => none

theorem act_requests {ev : Host.Event} (hact : f.act id ev = some f') :
    f'.requests = f.requests := by
  obtain ⟨_, _, rfl⟩ := act_eq_some.mp hact
  rfl

theorem step_requests (hstep : f.step voters ev = some f') :
    f'.requests = f.requests ++ ev.request?.toList := by
  cases stepped_of_some hstep with
  | deliver _ _ hact => exact (act_requests hact).trans (List.append_nil _).symm
  | request hact => exact act_requests hact
  | refuse => rfl
  | tick hact => exact (act_requests hact).trans (List.append_nil _).symm
  | restart _ _ hact => exact (act_requests hact).trans (List.append_nil _).symm

/-- A start refuses nothing. -/
theorem openServer_refuses {config : Server.Config} {store : σ} {recovery : Raft.Recovery}
    {s : Server σ} {err : Option Server.OpenError} {o : Server.Output}
    (hopen : Server.openServer config store recovery = .ok (s, err)) (ho : o ∈ s.output) :
    ¬ o.Refuses k := by
  obtain ⟨n, _, hreplay⟩ := Server.openServer_ok hopen
  rcases Server.replay_cases rfl hreplay with ⟨_, rfl, _⟩ | ⟨_, entries, _, _, _, hentries⟩
  · cases ho
  · rcases Server.replayEntries_output hentries o ho with hin | ⟨e, _, rfl⟩
    · cases hin
    · exact id

/-- What happens at a host refuses the request that its server takes, and nothing else. -/
theorem act_refuses {ev : Host.Event} (hact : f.act id ev = some f') (hx : x ∈ f'.record)
    (hr : x.2.Refuses k) : x ∈ f.record ∨ ∃ incoming s, ev = .input (.request incoming) ∧
      f.hosts id = .up s ∧ incoming.reply = k ∧ s.Unproposed incoming.value := by
  obtain ⟨host, hnext, rfl⟩ := act_eq_some.mp hact
  refine (List.mem_append.mp hx).imp_right fun hnew => ?_
  obtain ⟨o, ho, rfl⟩ := List.mem_map.mp hnew
  have hround : ∀ (more : Bool) {input : Server.Input} {s s' : Server σ}, f.hosts id = .up s →
      o ∈ s'.output → Server.Round s.fresh input more s' ∨ Server.Panicked s.fresh input s' →
      ∃ incoming s₁, Host.Event.input input = .input (.request incoming) ∧
        f.hosts id = .up s₁ ∧ incoming.reply = k ∧ s₁.Unproposed incoming.value := by
    intro more input s s' hup ho hround
    obtain ⟨incoming, rfl, hreply, hun⟩ := Server.round_refuses hround rfl ho hr
    exact ⟨incoming, s, rfl, hup, hreply, hun⟩
  cases Host.passed_of_some hnext with
  | completed hup hloop => exact hround true hup ho (Or.inl (Server.round_of_ok hloop))
  | returned hup hloop => exact hround false hup ho (Or.inl (Server.round_of_ok hloop))
  | panicked hup hloop => exact hround true hup ho (Or.inr (Server.panicked_of_error hloop))
  | started _ _ _ hserver => exact absurd hr (openServer_refuses hserver ho)
  | refused _ _ _ hserver => exact absurd hr (openServer_refuses hserver ho)

/-- An event refuses the request it brings, and nothing else. -/
theorem step_refuses (hstep : f.step voters ev = some f') (hx : x ∈ f'.record)
    (hr : x.2.Refuses k) : x ∈ f.record ∨ k = f.requests.length ∧ ev.request?.isSome = true ∧
      ∀ id request s, ev = .request id request → f.hosts id = .up s → s.Unproposed request := by
  cases stepped_of_some hstep with
  | deliver _ _ hact =>
    refine (act_refuses hact hx hr).imp_right ?_
    rintro ⟨_, _, hev, _⟩
    cases hev
  | @request id request _ hact =>
    refine (act_refuses hact hx hr).imp_right ?_
    rintro ⟨incoming, s, hev, hup, hreply, hun⟩
    cases hev
    refine ⟨hreply.symm, rfl, fun id' request' s' hev hup' => ?_⟩
    cases hev
    have heq : Host.up s = .up s' := hup.symm.trans hup'
    cases heq
    exact hun
  | refuse =>
    refine (List.mem_append.mp hx).imp_right fun hnew => ?_
    rw [List.mem_singleton.mp hnew] at hr
    exact ⟨hr.1.symm, rfl, fun _ _ _ hev => nomatch hev⟩
  | tick hact =>
    refine (act_refuses hact hx hr).imp_right ?_
    rintro ⟨_, _, hev, _⟩
    cases hev
  | restart _ _ hact =>
    refine (act_refuses hact hx hr).imp_right ?_
    rintro ⟨_, _, hev, _⟩
    cases hev

theorem run_requests (hrun : Runs.run (step voters) f events = some f') :
    f.requests <+: f'.requests := by
  induction events generalizing f with
  | nil =>
    cases hrun
    exact List.prefix_rfl
  | cons ev events ih =>
    obtain ⟨f₁, hstep, hrest⟩ := Runs.run_cons.mp hrun
    refine List.IsPrefix.trans ?_ (ih hrest)
    rw [step_requests hstep]
    exact List.prefix_append _ _

/-- A request that was made is not refused later. -/
theorem run_refuses (hrun : Runs.run (step voters) f events = some f') (hx : x ∈ f'.record)
    (hr : x.2.Refuses k) (hk : k < f.requests.length) : x ∈ f.record := by
  induction events generalizing f with
  | nil =>
    cases hrun
    exact hx
  | cons ev events ih =>
    obtain ⟨f₁, hstep, hrest⟩ := Runs.run_cons.mp hrun
    have hlen : f.requests.length ≤ f₁.requests.length := by
      rw [step_requests hstep, List.length_append]
      exact Nat.le_add_right _ _
    refine (step_refuses hstep (ih hrest (Nat.lt_of_lt_of_le hk hlen)) hr).resolve_right ?_
    rintro ⟨rfl, _⟩
    exact Nat.lt_irrefl _ hk

end Record

/-! ## What a step has to keep to -/

/-- The request is a mutation with these IDs. -/
def Attempts (client number : Word) (request : ClientRequest) : Prop :=
  (request.operation = .put ∨ request.operation = .delete) ∧
    request.clientID = client ∧ request.requestID = number

instance (client number : Word) (request : ClientRequest) :
    Decidable (Attempts client number request) := by
  unfold Attempts
  infer_instance

section Spared

variable [LawfulStore σ]

/-- The store's answers to the proposal of the request leave no entry of a refused one. -/
def KeepsProposal (s : Server σ) (request : ClientRequest) : Prop :=
  ∀ operation ∈ Server.commandOf request, s.node.state = .leader →
    s.node.Answered { term := s.node.term, operation := operation, clientID := request.clientID
                      requestID := request.requestID, key := request.key, value := request.value }

instance (s : Server σ) (request : ClientRequest) : Decidable (KeepsProposal s request) := by
  unfold KeepsProposal
  infer_instance

/-- The condition on the store when a leader takes the mutation with these IDs. -/
def KeepsProposals (client number : Word) (f : Fleet σ) : Event → Prop
  | .request id request =>
    Attempts client number request → ∀ s, f.hosts id = .up s → KeepsProposal s request
  | _ => True

instance (client number : Word) (f : Fleet σ) (ev : Event) :
    Decidable (f.KeepsProposals client number ev) := by
  unfold KeepsProposals
  split <;> infer_instance

/-- The mutation is not proposed, and leaves nothing behind. -/
def Spares (client number : Word) (f : Fleet σ) : Event → Prop
  | .request id request => Attempts client number request → ∀ s, f.hosts id = .up s →
      ∀ operation, Server.commandOf request = some operation → s.node.state ≠ .leader ∨
        Server.Idles s.node (Server.proposal request operation)
  | _ => True

theorem spares_of_unproposed {s : Server σ} {request : ClientRequest} {operation : CommandOp}
    (hun : s.Unproposed request) (hkeeps : KeepsProposal s request)
    (hop : Server.commandOf request = some operation) : s.node.state ≠ .leader ∨
      Server.Idles s.node (Server.proposal request operation) := by
  refine (hun operation hop).imp_right ?_
  rintro ⟨out, n, hexec, hout⟩
  exact ⟨out, n, hexec, Raft.proposeRequest_refused (hkeeps operation hop) hout hexec⟩

end Spared

/-- A mutation whose only attempt is refused in the end was not proposed in between. -/
theorem run_spares [LawfulStore σ] {voters : Word} {f f' : Fleet σ} {events : List Event} {k : Nat}
    {client number : Word} {x : Nat × Server.Output}
    (hbound : ∀ y ∈ f.record, y.2.Refuses k → k < f.requests.length)
    (hkeeps : Runs.Always (step voters) (KeepsProposals client number) f events)
    (hrun : Runs.run (step voters) f events = some f')
    (honly : ∀ j request, f'.requests[j]? = some request → Attempts client number request → j = k)
    (hx : x ∈ f'.record) (hr : x.2.Refuses k) :
    Runs.Always (step voters) (Spares client number) f events := by
  induction events generalizing f with
  | nil => trivial
  | cons ev events ih =>
    obtain ⟨f₁, hstep, hrest⟩ := Runs.run_cons.mp hrun
    have hbound₁ : ∀ y ∈ f₁.record, y.2.Refuses k → k < f₁.requests.length := by
      intro y hy hry
      rw [step_requests hstep, List.length_append]
      rcases step_refuses hstep hy hry with hold | ⟨rfl, hsome, _⟩
      · exact Nat.lt_of_lt_of_le (hbound y hold hry) (Nat.le_add_right _ _)
      · -- only a request is refused, so the event brings one
        obtain ⟨request, hrequest⟩ := Option.isSome_iff_exists.mp hsome
        rw [hrequest]
        exact Nat.lt_succ_self _
    refine ⟨?_, fun f₂ hstep₂ => ?_⟩
    · cases ev with
      | request id request =>
        intro hattempt s hup operation hop
        have hget : f'.requests[f.requests.length]? = some request := by
          have hpre := run_requests hrest
          rw [step_requests hstep] at hpre
          exact getElem?_of_pre hpre (by simp [Event.request?])
        obtain rfl := honly _ _ hget hattempt
        have hin : x ∈ f₁.record := by
          refine run_refuses hrest hx hr ?_
          rw [step_requests hstep, List.length_append]
          exact Nat.lt_succ_self _
        rcases step_refuses hstep hin hr with hold | ⟨_, _, hun⟩
        · exact absurd (hbound x hold hr) (Nat.lt_irrefl _)
        · exact spares_of_unproposed (hun id request s rfl hup) (hkeeps.1 hattempt s hup) hop
      | deliver => trivial
      | refuse => trivial
      | tick => trivial
      | restart => trivial
    · rw [hstep] at hstep₂
      cases hstep₂
      exact ih hbound₁ (hkeeps.2 f₁ hstep) hrest

/-! ## Refused mutations -/

section Refused

variable [LawfulStore σ]

/-- No leader appends a mutation with these IDs. -/
def refusalSetting (σ : Type) [LawfulStore σ] (voters client number : Word) : Setting σ where
  voters := voters
  reconf := False
  orderly := False
  Image _ _ := True
  fresh := False
  started _ _ := none
  reliable := False
  reliable_store := Raft.store_of_never
  reliable_orderly := Raft.orderly_of_never
  fresh_fixed := Raft.fixed_of_never
  Legal _ e := Mutates e → ¬ (e.clientID = client ∧ e.requestID = number)

variable {voters client number : Word} {f f' : Fleet σ} {c : Raft.Cluster σ}
variable {h : History Nat Entry} {id : Nat} {s s' : Server σ} {input : Server.Input}

theorem refusal_safe {ev : Event}
    (hf : FleetSim (refusalSetting σ voters client number) False f c h)
    (hspares : Spares client number f ev) (hstep : f.step voters ev = some f') :
    FleetSim.Safe (refusalSetting σ voters client number) False f h f' ev := by
  refine FleetSim.safe_of_step (K := refusalSetting σ voters client number) hf (fun h => h) hstep
    (fun id m s _ _ => ⟨?_, False.elim⟩) ?_ fun _ _ _ _ _ => ⟨trivial, trivial⟩
  · exact {
      voters := False.elim, held := False.elim, single := False.elim, reach := False.elim
      own := fun _ _ _ _ _ _ _ => trivial }
  · rintro id request s operation rfl hup hop _
    by_cases hattempt : Attempts client number request
    · rcases hspares hattempt s hup operation hop with hstate | hsame
      · exact Or.inl fun hlead => absurd hlead hstate
      · exact Or.inr ⟨False.elim, hsame⟩
    · refine Or.inl fun _ _ hids => hattempt ⟨?_, hids⟩
      unfold Server.commandOf at hop
      split at hop
      · rename_i hput
        exact Or.inl hput
      · rename_i hdelete
        exact Or.inr hdelete
      · cases hop

/-- An entry that was applied is one that leaders append. -/
theorem refusal_applied {e : Entry}
    (hf : FleetSim (refusalSetting σ voters client number) False f c h)
    (happlied : (id, .applied e) ∈ f.record) (hmutates : Mutates e) :
    ¬ (e.clientID = client ∧ e.requestID = number) := by
  obtain ⟨hkind, a, ha, rfl⟩ := hf.mirrors.record _ happlied
  obtain ⟨t, y, hy, _, hentry⟩ := hf.sim.applied a ha
  have hmem : a.entry ∈ y := List.mem_of_getElem? hentry
  rcases hy with rfl | ⟨t₀, i, r, _, hlead, _, _, hpre⟩
  · cases hmem
  · obtain ⟨_, hallow⟩ := (hf.sim.sane.allowed t₀ r hlead).mem (hpre.subset hmem)
    exact hallow.2 hkind hmutates

/-- A mutation whose only attempt is answered with `StatusNotLeader` or `StatusBusy` is
never applied by any machine, before or after any restart, when a leader that takes it has
a store that answers as follows. Append of the entry returns nil, and so does the
SaveHardState behind it, which is made if the leader is a quorum alone; or Append returns
an error and the entry is not in the store. Other calls may fail at any point. -/
theorem refused_mutation_has_no_effect {f₀ : Fleet σ} {events : List Event} {k : Nat}
    {response : ClientResponse} (hinit : f₀.Initial voters)
    (hkeeps : Runs.Always (step voters) (KeepsProposals client number) f₀ events)
    (hrun : Runs.run (step voters) f₀ events = some f)
    (honly : ∀ j request, f.requests[j]? = some request → Attempts client number request → j = k)
    (hanswer : (id, .replied k response) ∈ f.record)
    (hstatus : response.status = .notLeader ∨ response.status = .busy) :
    ∀ host e, (host, .applied e) ∈ f.record → Mutates e →
      ¬ (e.clientID = client ∧ e.requestID = number) := by
  have hspares : Runs.Always (step voters) (Spares client number) f₀ events :=
    run_spares (x := (id, .replied k response))
      (fun y hy => by rw [hinit.record] at hy; cases hy) hkeeps hrun honly hanswer ⟨rfl, hstatus⟩
  obtain ⟨c₀, hf₀⟩ := Initial.sim (K := refusalSetting σ voters client number)
    False hinit fun _ _ => rfl
  obtain ⟨c, h, hf, _⟩ := hf₀.run_all (fun hrec => hrec) False.elim
    (fun f c h ev f' hf hp hstep => refusal_safe hf hp hstep) hspares hrun
  exact fun host e happlied hmutates => refusal_applied hf happlied hmutates

end Refused

/-! ## A server alone -/

/-- The only voter, which starts an election with the first tick. -/
def soleConfig : Server.Config := { id := 1, peers := [1], electionTicks := 1 }

def soleServer (disk : Disk) : Server Disk where
  config := soleConfig
  node := { id := 1, peers := [], timeout := 1, votersOld := 1, store := disk }

def soleFleet (disk : Disk) : Fleet Disk where
  hosts := fun id => if id = 1 then .up (soleServer disk) else .absent

theorem soleFleet_initial (script : List Raft.Outcome) :
    (soleFleet { script := script }).Initial 1 where
  hosts id := by
    by_cases hid : id = 1
    · subst hid
      exact Or.inr ⟨soleConfig, { script := script }, soleServer { script := script }, rfl, rfl, rfl,
        rfl, rfl⟩
    · exact Or.inl (if_neg hid)
  requests := rfl
  record := rfl

/-- The client puts 6 under key 5, with its first request. -/
def putBy (client : Word) : Event := .request 1 ⟨.put, client, 1, 5, 6⟩

/-- The first client is too early. The server is elected, and the second client is not. -/
def earlyRequest : List Event := [putBy 1, .tick 1, putBy 2]

theorem refused_mutation_has_no_effect_earlyRequest : ∃ f,
    Runs.run (step 1) (soleFleet {}) earlyRequest = some f ∧
    (∃ e, (1, .applied e) ∈ f.record ∧ e.clientID = 2) ∧
    ∀ host e, (host, .applied e) ∈ f.record → Mutates e →
      ¬ (e.clientID = 1 ∧ e.requestID = 1) := by
  obtain ⟨f, hrun, hrequests, hanswer, happlied⟩ := Runs.run_check (step 1) (soleFleet {})
    earlyRequest (fun f => f.requests = [⟨.put, 1, 1, 5, 6⟩, ⟨.put, 2, 1, 5, 6⟩] ∧
      (1, .replied 0 { status := .notLeader, requestID := 1 }) ∈ f.record ∧
      (1, .applied { term := 1, operation := .put, clientID := 2, requestID := 1, key := 5, value := 6 }) ∈
        f.record) (by decide +kernel)
  refine ⟨f, hrun, ⟨_, happlied, rfl⟩, ?_⟩
  refine refused_mutation_has_no_effect (soleFleet_initial []) (by decide +kernel) hrun (k := 0) ?_
    hanswer (Or.inl rfl)
  rw [hrequests]
  rintro (_ | _ | j) request hrequest hattempt
  · rfl
  · cases hrequest
    exact absurd hattempt (by decide)
  · cases hrequest

/-- The store takes the entry of the proposal, and fails to save the hard state behind it. -/
def failingDisk : Disk := { script := [.done, .done, .done, .done, .lost] }

/-- The server is elected, fails in the proposal, is restarted and is elected again. -/
def failedProposal : List Event := [.tick 1, putBy 1, .restart 1 soleConfig, .tick 1]

/-- The only attempt is answered with `StatusBusy`, and the mutation is applied. -/
theorem busy_mutation_is_applied : ∃ f,
    Runs.run (step 1) (soleFleet failingDisk) failedProposal = some f ∧
    f.requests = [⟨.put, 1, 1, 5, 6⟩] ∧
    (∃ response, (1, .replied 0 response) ∈ f.record ∧ response.status = .busy) ∧
    ∃ e, (1, .applied e) ∈ f.record ∧ Mutates e ∧ e.clientID = 1 ∧ e.requestID = 1 := by
  obtain ⟨f, hrun, hrequests, hanswer, happlied⟩ := Runs.run_check (step 1) (soleFleet failingDisk)
    failedProposal (fun f => f.requests = [⟨.put, 1, 1, 5, 6⟩] ∧
      (f.record.any fun x => match x with
        | (1, .replied 0 response) => response.status = .busy
        | _ => false) = true ∧
      (1, .applied { term := 1, operation := .put, clientID := 1, requestID := 1, key := 5, value := 6 }) ∈
        f.record) (by decide +kernel)
  refine ⟨f, hrun, hrequests, ?_, ⟨_, happlied, Or.inl rfl, rfl, rfl⟩⟩
  obtain ⟨x, hx, hbusy⟩ := List.any_eq_true.mp hanswer
  split at hbusy
  · exact ⟨_, hx, of_decide_eq_true hbusy⟩
  · cases hbusy

end Fleet

end Promtact
