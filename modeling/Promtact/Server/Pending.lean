import Promtact.Server.Inbound

/-!
# Mutations that wait

A mutation waits in `pending` until the node hands out its entry. The entry is in the log
behind the applied index as long as nothing takes it away: neither an append that cuts the
log in front of it, nor a snapshot that replaces it or moves the applied index over it. The
server never sees either, so a waiter may be left behind.

For one proposal the entry is followed through a round with the `keep` of a `Watch`.
-/

namespace Promtact

open Raft (Disk Node NodeM Message Entry Op OpenStore StableStore Safe Local Watch LWp StepLocal)
open Raft.Node (indexes)

variable {σ : Type}

/-- The committed prefix is in order, and the entry stays where it is. -/
def keepWatch (i : Nat) (e : Entry) : Watch where
  settled := True
  keep j f := j = i ∧ f = e

def settledWatch : Watch where
  settled := True

namespace Server

/-- The entry of a proposal that nobody waits for any more, or of none. -/
def Idle (s : Server σ) (i : Nat) : Prop := ∀ e, s.node.entryAt? i = some e →
  s.pending (entryKey e) = none

instance (s : Server σ) (i : Nat) : Decidable (s.Idle i) := by
  unfold Idle
  cases s.node.entryAt? i with
  | none => exact isTrue fun _ h => nomatch h
  | some e =>
    exact decidable_of_iff (s.pending (entryKey e) = none)
      ⟨fun h e' he => by cases he; exact h, fun h => h e rfl⟩

/-- An append that the node accepts cuts off no entry that is waited for. -/
def RetainsLog (s : Server σ) (m : Message) : Prop :=
  m.type = .append → s.node.term ≤ m.term → s.node.termAt m.logIndex = some m.logTerm →
    m.hasEntry = true → s.node.termAt (m.logIndex + 1) ≠ some m.entry.term →
    ∀ i ∈ indexes (m.logIndex + 1) s.node.lastIndex, s.Idle i

instance (s : Server σ) (m : Message) : Decidable (s.RetainsLog m) := by
  unfold RetainsLog
  infer_instance

/-- A snapshot that the node takes over replaces no entry that is waited for, and passes
over none. -/
def RetainsSuffix (s : Server σ) (m : Message) : Prop :=
  m.type = .installSnapshot → s.node.term ≤ m.term → m.snapshotOld ≠ 0 →
    s.node.baseIndex < m.snapshotIndex → ∀ i ∈ indexes (s.node.applied + 1) s.node.lastIndex,
      (m.snapshotIndex < i ∧ s.node.termAt m.snapshotIndex = some m.snapshotTerm) ∨ s.Idle i

instance (s : Server σ) (m : Message) : Decidable (s.RetainsSuffix m) := by
  unfold RetainsSuffix
  infer_instance

/-- A message that takes no entry away that is waited for. -/
def Retains (s : Server σ) (m : Message) : Prop := s.RetainsLog m ∧ s.RetainsSuffix m

instance (s : Server σ) (m : Message) : Decidable (s.Retains m) :=
  inferInstanceAs (Decidable (s.RetainsLog m ∧ s.RetainsSuffix m))

/-- The entry at an index is the one of a proposal, and it is not applied. -/
structure OnItsWay (n : Node σ) (key : PendingKey) (i : Nat) (e : Entry) : Prop where
  behind : n.applied < i
  at_index : n.entryAt? i = some e
  normal : e.kind = .normal
  key_eq : entryKey e = key

/-- Every proposal that is waited for is in the log, and not applied. -/
def Awaited (s : Server σ) : Prop := ∀ key, s.pending key ≠ none → ∃ i e, OnItsWay s.node key i e

variable {s s' : Server σ} {n n' : Node σ} {key : PendingKey} {i : Nat} {e : Entry}

theorem OnItsWay.local (ho : OnItsWay n key i e) (hl : Local settledWatch n) :
    Local (keepWatch i e) n :=
  { hl with kept := by rintro _ _ ⟨rfl, rfl⟩; exact ⟨ho.behind, ho.at_index⟩ }

theorem OnItsWay.of_local (ho : OnItsWay n key i e) (hl : Local (keepWatch i e) n') :
    OnItsWay n' key i e := by
  obtain ⟨hbehind, hat⟩ := hl.kept i e ⟨rfl, rfl⟩
  exact { ho with behind := hbehind, at_index := hat }

theorem OnItsWay.same (ho : OnItsWay n key i e) (hsame : Raft.SameLog n n') :
    OnItsWay n' key i e := by
  refine { ho with behind := by rw [hsame.2.2.2]; exact ho.behind, at_index := ?_ }
  rw [← ho.at_index]
  unfold Node.entryAt? Node.offset Node.lastIndex
  rw [hsame.1, hsame.2.1]

variable [StableStore σ] {m : Message} {input : Input}

omit [StableStore σ] in
/-- A message keeps an entry that is waited for. -/
theorem Retains.stepLocal (hr : s.Retains m) (hagrees : s.node.Agrees m)
    (ho : OnItsWay s.node key i e) (hkey : s.pending key ≠ none) :
    StepLocal (keepWatch i e) s.node m := by
  have hin := (Raft.entryAt?_inLog ho.at_index).2.1
  have hbusy : ¬ s.Idle i := fun hidle => hkey (by rw [← ho.key_eq]; exact hidle e ho.at_index)
  exact {
    append := fun _ => hagrees.1
    cut := by
      rintro htype hterm hprev hentry present hpresent hne _ _ ⟨rfl, rfl⟩
      by_contra hlt
      refine hbusy (hr.1 htype hterm hprev hentry ?_ _ ?_)
      · rw [hpresent]
        exact fun heq => hne (Option.some.inj heq)
      · exact Raft.mem_indexes.mpr ⟨by omega, hin⟩
    snapshot := fun htype hterm hold hlt => {
      held := fun _ => hagrees.2 htype hterm hold hlt
      pending := False.elim
      known := False.elim
      kept := by
        rintro _ _ ⟨rfl, rfl⟩
        exact (hr.2 htype hterm hold hlt _ (Raft.mem_indexes.mpr ⟨ho.behind, hin⟩)).resolve_right
          hbusy }
    sender := False.elim }

/-! ## Proposing -/

omit [StableStore σ] in
/-- A new last entry stays there. -/
theorem local_concat (hl : Local settledWatch n) (hplain : e.isConfig = false) :
    Local (keepWatch (n.lastIndex + 1) e) { n with log := n.log ++ [e] } := by
  have hb := Raft.Body.concat (e := e) hl.toBody False.elim
  refine { hb with pending := False.elim, kept := ?_ }
  rintro _ _ ⟨rfl, rfl⟩
  obtain ⟨_, happlied, hcommit⟩ := hl.bounds trivial
  exact ⟨Nat.lt_succ_of_le (Nat.le_trans happlied hcommit), Raft.entryAt?_concat hl.log_ne⟩

/-- An entry that was appended stays there while the leader commits and sends. -/
theorem lwp_appended (hl : Local settledWatch n) (hplain : e.isConfig = false) :
    LWp (keepWatch (n.lastIndex + 1) e) (do
      if !(← Raft.appendLocal e) then return false
      Raft.broadcastAppend
      return true) (fun ok n' => ok = true → Local (keepWatch (n.lastIndex + 1) e) n') n := by
  have hsend : ∀ n₁ : Node σ, Local (keepWatch (n.lastIndex + 1) e) n₁ →
      LWp (keepWatch (n.lastIndex + 1) e) (do
        Raft.broadcastAppend
        return true) (fun ok n' => ok = true → Local (keepWatch (n.lastIndex + 1) e) n') n₁ :=
    fun n₁ hl₁ => LWp.bind (Raft.lwp_broadcastAppend hl₁.toBody fun n₂ hsends =>
      LWp.of_pure fun _ => hl₁.of_core hsends.core)
  refine LWp.bind (LWp.bind (LWp.of_get (LWp.bind (Raft.lwp_tryStore (fun store => ?_)
    fun n' _ => LWp.of_pure (LWp.of_pure (nomatch ·))))))
  refine LWp.bind (LWp.of_modify ?_)
  have hl₁ : Local (keepWatch (n.lastIndex + 1) e) { n with store := store, log := n.log ++ [e] } :=
    (local_concat hl hplain).of_core rfl
  refine LWp.bind (Raft.lwp_ask False.elim fun own _ => LWp.bind (Raft.lwp_ask False.elim
    fun quorum _ => LWp.ite (fun _ => LWp.of_pure (hsend _ hl₁)) fun _ => ?_))
  exact Raft.lwp_commitOwn hl₁ hsend fun n' _ => LWp.of_pure (nomatch ·)

/-- A leader that accepts a request has its entry in the log. -/
theorem proposeRequest_true {operation : Raft.CommandOp} {clientID requestID key value : Raft.Word}
    (hl : Local settledWatch n)
    (h : Raft.proposeRequest operation clientID requestID key value n = .ok true n') :
    ∃ i e, OnItsWay n' ⟨clientID, requestID⟩ i e := by
  obtain ⟨_, _, hget, h⟩ := bind_eq_ok.mp h
  cases hget
  split at h
  · cases h
  · have hlocal := (lwp_appended hl rfl).elim h rfl
    obtain ⟨hbehind, hat⟩ := hlocal.kept _ _ ⟨rfl, rfl⟩
    exact ⟨_, _, hbehind, hat, rfl, rfl⟩

/-! ## Rounds -/

/-- The node runs, its indexes are in order, and what is waited for is on its way. -/
structure Waits (s : Server σ) : Prop where
  node : Local settledWatch s.node
  awaited : s.Awaited

variable {op : Op} {out : Raft.Output} {incoming : Request}

/-- A call that the node survives keeps what is waited for. -/
theorem Waits.called (hw : s.Waits) (hexec : op.exec s.node = .ok out n)
    (hrunning : n.storageErr = none) (hop : Raft.OpLocal settledWatch s.node op)
    (hkeep : ∀ key i e, s.pending key ≠ none → OnItsWay s.node key i e →
      Raft.OpLocal (keepWatch i e) s.node op) : (s.called op n).Waits where
  node := (Raft.exec_safe (Or.inr hw.node) (fun _ => hop) hexec).resolve_left
    fun h => h.error hrunning
  awaited key hkey := by
    obtain ⟨i, e, ho⟩ := hw.awaited key hkey
    have hsafe := Raft.exec_safe (Or.inr (ho.local hw.node)) (fun _ => hkeep key i e hkey ho) hexec
    exact ⟨i, e, ho.of_local (hsafe.resolve_left fun h => h.error hrunning)⟩

theorem Handled.waits (hh : Handled s incoming s') (hw : s.Waits)
    (hrunning : s'.node.storageErr = none) : s'.Waits := by
  cases hh with
  | status => exact ⟨hw.node, hw.awaited⟩
  | notLeader => exact ⟨hw.node, hw.awaited⟩
  | readBusy => exact ⟨hw.node, hw.awaited⟩
  | readRefused _ hexec =>
    have := hw.called hexec hrunning trivial fun _ _ _ _ _ => trivial
    exact ⟨this.node, this.awaited⟩
  | readParked _ _ _ hexec =>
    have := hw.called hexec hrunning trivial fun _ _ _ _ _ => trivial
    exact ⟨this.node, this.awaited⟩
  | invalid => exact ⟨hw.node, hw.awaited⟩
  | cached => exact ⟨hw.node, hw.awaited⟩
  | joined _ hwaiters =>
    refine ⟨hw.node, fun key hkey => hw.awaited key ?_⟩
    by_cases heq : key = keyOf incoming.value
    · rw [heq, hwaiters]
      exact Option.some_ne_none _
    · simpa [waiting, heq] using hkey
  | refused _ _ _ hexec =>
    have := hw.called hexec hrunning trivial fun _ _ _ _ _ => trivial
    exact ⟨this.node, this.awaited⟩
  | proposed _ _ _ _ hexec =>
    have hcalled := hw.called hexec hrunning trivial fun _ _ _ _ _ => trivial
    refine ⟨hcalled.node, fun key hkey => ?_⟩
    by_cases heq : key = keyOf incoming.value
    · subst heq
      obtain ⟨_, _, hrun, hout⟩ := bind_eq_ok.mp hexec
      cases hout
      exact proposeRequest_true hw.node hrun
    · refine hcalled.awaited key ?_
      simpa [waiting, called, heq] using hkey

theorem Taken.waits (ht : Taken s input s') (hw : s.Waits)
    (hm : ∀ m, input = .message m → s.node.Agrees m ∧ s.Retains m)
    (hrunning : s'.node.storageErr = none) : s'.Waits := by
  cases ht with
  | message hexec =>
    obtain ⟨hagrees, hretains⟩ := hm _ rfl
    exact hw.called hexec hrunning
      (fun _ => hagrees.stepLocal id id (fun _ _ => False.elim) False.elim)
      fun key i e hkey ho _ => hretains.stepLocal hagrees ho hkey
  | tick hexec => exact hw.called hexec hrunning trivial fun _ _ _ _ _ => trivial
  | request hh => exact hh.waits hw hrunning

omit [StableStore σ] in
/-- What the node hands out is not waited for any more; what it keeps is behind it. -/
theorem OnItsWay.applied (ho : OnItsWay n key i e) (hkey : key ∉ (n.unapplied n.commit).map entryKey) :
    OnItsWay { n with applied := max n.applied n.commit } key i e := by
  refine { ho with behind := Nat.max_lt.mpr ⟨ho.behind, ?_⟩ }
  by_contra hle
  refine hkey (List.mem_map.mpr ⟨e, List.mem_filterMap.mpr ⟨i, ?_, ?_⟩, ho.key_eq⟩)
  · exact Raft.mem_indexes.mpr ⟨ho.behind, by omega⟩
  · simp [ho.at_index, ho.normal]

theorem Waits.applied {entries : List Entry} (hw : s.Waits) (hrunning : s.node.storageErr = none)
    (happly : Op.applyEntries.exec s.node = .ok (.entries entries) n) :
    (s.applied n entries).Waits ∧ n.storageErr = none := by
  obtain ⟨_, _, hrun, hout⟩ := bind_eq_ok.mp happly
  cases hout
  obtain ⟨rfl, rfl⟩ := Raft.applyEntries_ok hrun
  have hop : Raft.OpLocal settledWatch s.node .applyEntries := fun _ _ => False.elim
  have hsafe := Raft.exec_safe (Or.inr hw.node) (fun _ => hop) happly
  refine ⟨⟨?_, fun key hkey => ?_⟩, hrunning⟩
  · rw [applied_node]
    exact hsafe.resolve_left fun h => h.error hrunning
  · rw [applied_node]
    rw [Server.applied, afterEntries_pending] at hkey
    split at hkey
    · exact absurd rfl hkey
    · rename_i hnot
      obtain ⟨i, e, ho⟩ := hw.awaited key hkey
      exact ⟨i, e, ho.applied hnot⟩

theorem Compacted.waits (hc : Compacted s s') (hw : s.Waits) (hrunning : s.node.storageErr = none) :
    s'.Awaited ∧ (s'.node.Stopped ∨ s'.Waits) := by
  cases hc with
  | kept => exact ⟨hw.awaited, Or.inr hw⟩
  | called _ hexec =>
    obtain ⟨_, _, hrun, hout⟩ := bind_eq_ok.mp hexec
    cases hout
    cases Raft.compact_ok hrun with
    | refused => exact ⟨hw.awaited, Or.inr ⟨hw.node, hw.awaited⟩⟩
    | stopped hstopped hsame =>
      refine ⟨fun key hkey => ?_, Or.inl hstopped⟩
      obtain ⟨i, e, ho⟩ := hw.awaited key hkey
      exact ⟨i, e, ho.same hsame⟩
    | compacted =>
      have := hw.called hexec hrunning trivial fun _ _ _ _ _ => trivial
      exact ⟨this.awaited, Or.inr this⟩

/-- A completed round keeps what is waited for, even when the compaction at its end fails. -/
theorem Round.waits (hr : Round s input true s') (hw : s.Waits)
    (hm : ∀ m, input = .message m → s.node.Agrees m ∧ s.Retains m) :
    s'.Awaited ∧ (s'.node.Stopped ∨ s'.Waits) := by
  cases hr with
  | completed htaken hrunning happly hcompact =>
    rename_i s₁ s₂ entries n
    have hw₁ := htaken.waits hw hm hrunning
    have hsend : s₁.afterSend.Waits := ⟨hw₁.node.of_core rfl, fun key hkey => by
      obtain ⟨i, e, ho⟩ := hw₁.awaited key hkey
      exact ⟨i, e, ho.same ⟨rfl, rfl, rfl, rfl⟩⟩⟩
    obtain ⟨hw₂, hrunning₂⟩ := hsend.applied hrunning happly
    obtain ⟨hawaited, hnode⟩ := hcompact.waits hw₂ (by rw [applied_node]; exact hrunning₂)
    exact ⟨hawaited, hnode.imp_right fun hw => ⟨hw.node, hw.awaited⟩⟩

/-- A stopped node ends its server with the next round. -/
theorem Round.not_stopped (hr : Round s input true s') : ¬ s.node.Stopped := by
  intro hstopped
  cases hr with
  | completed htaken hrunning =>
    have hkeeps := htaken.keeps (I := Node.Stopped) hstopped
      (fun m out n _ hexec => (Raft.lwp_exec_stopped _ hstopped).elim hexec)
      fun hexec _ hstopped => (Raft.lwp_exec_stopped _ hstopped).elim hexec
    exact hkeeps.error hrunning

end Server

namespace Host

variable [OpenStore σ] {s₀ s : Server σ} {events : List Event} {config : Server.Config} {store : σ}

/-- Every mutation that a client waits for is in the log, at an index above Applied, as long
as the messages keep to the following. None contradicts what the node has committed, by an
append at or below Commit or a snapshot from below it. And none takes away an entry that is
waited for: an append that the node takes does not cut one off, and a snapshot that it takes
over neither replaces one nor passes over it. -/
theorem pending_on_its_way (hnew : Server.new config store = .ok s₀)
    (hmeets : Runs.Always next (Meets fun s m => s.node.Agrees m ∧ s.Retains m) (.up s₀) events)
    (hrun : Runs.run next (.up s₀) events = some (.up s)) (key : Server.PendingKey)
    (hkey : s.pending key ≠ none) : ∃ i e, s.node.applied < i ∧ i ≤ s.node.lastIndex ∧
      s.node.entryAt? i = some e ∧ e.clientID = key.client ∧ e.requestID = key.request := by
  have hI : s.Awaited ∧ (s.node.Stopped ∨ s.Waits) := by
    refine run_server (I := fun s => s.Awaited ∧ (s.node.Stopped ∨ s.Waits)) ?_ ?_ ?_ hmeets hrun
    · obtain ⟨n, hn, rfl⟩ := new_ok hnew
      have hempty : Server.Awaited { config := config, node := n } := fun key hkey => absurd rfl hkey
      exact ⟨hempty, Or.inr ⟨Raft.local_new (fun _ _ => False.elim) hn, hempty⟩⟩
    · rintro s input s' ⟨_, hs⟩ hp hloop
      have hr := Server.round_of_ok hloop
      rcases hs with hstopped | hw
      · exact absurd { hstopped with } hr.not_stopped
      · have hw' : s.fresh.Waits := ⟨hw.node, hw.awaited⟩
        refine hr.waits hw' ?_
        rintro m rfl
        exact hp s rfl hw.node.running
    · intro config store recovery s' hopen
      obtain ⟨⟨hsafe, _⟩, hpending, _⟩ := start_local (W := settledWatch) (fun _ _ => False.elim) hopen
      have hempty : s'.Awaited := fun key hkey => absurd (congrFun hpending key) hkey
      exact ⟨hempty, hsafe.imp_right fun hl => ⟨hl, hempty⟩⟩
  obtain ⟨i, e, ho⟩ := hI.1 key hkey
  obtain ⟨hlo, hhi, _⟩ := Raft.entryAt?_inLog ho.at_index
  have := ho.key_eq
  subst this
  exact ⟨i, e, ho.behind, hhi, ho.at_index, rfl, rfl⟩

/-- Node 1 is elected by node 2. -/
def electedBySecond : List Event :=
  [.input .tick,
    .input (.message { type := .preVoteResponse, fromID := 2, toID := 1, term := 1 }),
    .input (.message { type := .requestVoteResponse, fromID := 2, toID := 1, term := 1 })]

/-- Client 1 puts 6 under key 5. -/
def putRequest : Event := .input (.request ⟨⟨.put, 1, 1, 5, 6⟩, 0⟩)

theorem pending_on_its_way_putRequest : ∃ s i e,
    Runs.run next (.up firstServer) (electedBySecond ++ [putRequest]) = some (.up s) ∧
    s.pending ⟨1, 1⟩ = some [0] ∧ s.node.applied < i ∧ i ≤ s.node.lastIndex ∧
    s.node.entryAt? i = some e ∧ e.clientID = 1 ∧ e.requestID = 1 := by
  have hnew : Server.new firstConfig ({} : Disk) = .ok firstServer := rfl
  obtain ⟨_, hrun, s, rfl, hkey⟩ := Runs.run_check next (.up firstServer)
    (electedBySecond ++ [putRequest]) (fun h => ∃ s, h = .up s ∧ s.pending ⟨1, 1⟩ = some [0])
    (by decide +kernel)
  obtain ⟨i, e, hway⟩ := pending_on_its_way hnew (by decide +kernel) hrun ⟨1, 1⟩
    (by rw [hkey]; exact Option.some_ne_none _)
  exact ⟨s, i, e, hrun, hkey, hway⟩

/-- Node 2, elected by node 3, replicates its first entry. -/
def overwrittenBySecond : Event :=
  .input (.message { type := .append, fromID := 2, toID := 1, term := 2, hasEntry := true
                     entry := { term := 2, kind := .noop } })

/-- The leader of the next term cuts the proposal off, and its waiter stays. -/
theorem truncated_proposal_stays_pending : ∃ s,
    Runs.run next (.up firstServer) (electedBySecond ++ [putRequest, overwrittenBySecond]) =
      some (.up s) ∧ s.pending ⟨1, 1⟩ = some [0] ∧ ∀ e ∈ s.node.log, e.clientID ≠ 1 := by
  obtain ⟨_, hrun, s, rfl, hkey, hlog⟩ := Runs.run_check next (.up firstServer)
    (electedBySecond ++ [putRequest, overwrittenBySecond]) (fun h => ∃ s, h = .up s ∧
      (s.pending ⟨1, 1⟩ = some [0] ∧ ∀ e ∈ s.node.log, e.clientID ≠ 1)) (by decide +kernel)
  exact ⟨s, hrun, hkey, hlog⟩

end Host

end Promtact
