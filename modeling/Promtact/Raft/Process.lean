import Promtact.Raft.LocalOperations
import Promtact.Raft.Transfer
import Promtact.Runs

/-!
# One process

What happens to a process is an operation, with any message, or a restart from its store
with any peers. A run of a cluster is such a run of each of its processes
(`Cluster.run_proc`), so a fact about the runs of a process is one about every cluster,
whoever sends the messages.

`run_local` says that a process keeps what is `Local` to a node through operations and
restarts: a restart establishes it from whatever the store returns.
-/

namespace Promtact.Raft

open Node (indexes)

variable {σ : Type} {W : Watch} {s s' : Node σ}

/-! ## Recovery -/

section Folding

variable {commit index k : Nat} {f f' : Folded} {e : Entry}

/-- The fold passes entries that change no voters, takes over committed changes, and
notes one change behind the commit index. -/
theorem foldEntry_cases (h : foldEntry commit index f e = some f') :
    (e.isConfig = false ∧ f' = f) ∨
    (e.isConfig = true ∧ f.pending = 0 ∧ ((index ≤ commit ∧ f'.pending = 0 ∧
        f'.old = e.oldVoters ∧ (f'.new = e.newVoters ∨ f'.new = 0)) ∨
      (commit < index ∧ f' = { f with pending := index }))) := by
  unfold foldEntry at h
  have hconfig : e.kind = .jointConfig ∨ e.kind = .finalConfig ↔ e.isConfig = true :=
    isConfig_iff.symm
  cases hkind : e.kind with
  | normal =>
    have hno : e.isConfig = false := by simp [Entry.isConfig, hkind]
    simp only [hkind] at h
    split at h
    · cases h
    · exact Or.inl ⟨hno, by cases h; rfl⟩
  | noop =>
    have hno : e.isConfig = false := by simp [Entry.isConfig, hkind]
    simp only [hkind] at h
    split at h
    · cases h
    · exact Or.inl ⟨hno, by cases h; rfl⟩
  | jointConfig =>
    simp only [hkind] at h
    split at h
    · cases h
    rename_i hfit
    simp only [Bool.or_eq_true, decide_eq_true_eq, not_or, ne_eq, not_not] at hfit
    refine Or.inr ⟨hconfig.mp (Or.inl hkind), hfit.1.1.1.1, ?_⟩
    split at h
    · rename_i hle
      cases h
      exact Or.inl ⟨hle, hfit.1.1.1.1, rfl, Or.inl rfl⟩
    · rename_i hgt
      cases h
      exact Or.inr ⟨Nat.lt_of_not_le hgt, rfl⟩
  | finalConfig =>
    simp only [hkind] at h
    split at h
    · cases h
    rename_i hfit
    simp only [Bool.or_eq_true, decide_eq_true_eq, not_or, ne_eq, not_not] at hfit
    refine Or.inr ⟨hconfig.mp (Or.inr hkind), hfit.1.1.1, ?_⟩
    split at h
    · rename_i hle
      cases h
      exact Or.inl ⟨hle, hfit.1.1.1, rfl, Or.inr rfl⟩
    · rename_i hgt
      cases h
      exact Or.inr ⟨Nat.lt_of_not_le hgt, rfl⟩
  | other c => simp [hkind] at h

/-- What is local to a node, for the log up to `k` that the fold has passed. -/
structure Folding (W : Watch) (s : Node σ) (k : Nat) (f : Folded) : Prop where
  running : s.faulted = false
  log_ne : s.log ≠ []
  own : 0 < s.id ∧ s.id ≤ 64
  tame : Tame s
  voters : W.known → s.Knows (f.old ||| f.new)
  entries : W.known → ∀ i e, s.baseIndex < i → i ≤ k → s.entryAt? i = some e →
    e.isConfig = true → s.Knows (e.oldVoters ||| e.newVoters)
  pending : W.pend → ({ s with pendingConfig := f.pending } : Node σ).Tracks s.commit k

/-- The fold over the next entry, whose voters become peers. -/
theorem Folding.step (hf : Folding W s k f) (he : s.entryAt? (k + 1) = some e)
    (hstep : foldEntry s.commit (k + 1) f e = some f') :
    Folding W (s.ensurePeers (e.oldVoters ||| e.newVoters)) (k + 1) f' := by
  obtain ⟨hkept, hknows⟩ := ensurePeers_knows (e.oldVoters ||| e.newVoters) s
  have htame := hf.tame.ensurePeers (e.oldVoters ||| e.newVoters)
  have hsame := SameLog.ensurePeers (e.oldVoters ||| e.newVoters) s
  have hid : (s.ensurePeers (e.oldVoters ||| e.newVoters)).id = s.id :=
    ensurePeers_frame Node.id (fun _ _ _ _ => rfl) _ s
  have hrunning : (s.ensurePeers (e.oldVoters ||| e.newVoters)).faulted = s.faulted :=
    ensurePeers_frame Node.faulted (fun _ _ _ _ => rfl) _ s
  generalize s.ensurePeers (e.oldVoters ||| e.newVoters) = t at hkept hknows htame hsame hid hrunning ⊢
  have hat : ∀ i, t.entryAt? i = s.entryAt? i := fun i => by
    unfold Node.entryAt? Node.offset Node.lastIndex
    rw [hsame.1, hsame.2.1]
  have hconf : ∀ i, t.ConfigAt i ↔ s.ConfigAt i := fun i => by
    unfold Node.ConfigAt
    rw [hat]
  have hcases := foldEntry_cases hstep
  refine ⟨hrunning.trans hf.running, by rw [hsame.1]; exact hf.log_ne, by rw [hid]; exact hf.own,
    htame, fun hk => ?_,
    fun hk i e' hlo hhi he' hc => ?_, fun hp => ?_⟩
  · rcases hcases with ⟨_, rfl⟩ | ⟨_, _, ⟨_, _, hold, hnew⟩ | ⟨_, rfl⟩⟩
    · exact (hf.voters hk).mono hid hkept
    · rw [hold]
      refine hknows.of_or.1.or ?_
      rcases hnew with hnew | hnew
      · rw [hnew]
        exact hknows.of_or.2
      · rw [hnew]
        exact Node.Knows.zero
    · exact (hf.voters hk).mono hid hkept
  · rcases Nat.lt_or_ge k i with hlt | hge
    · obtain rfl : i = k + 1 := by omega
      rw [hat, he] at he'
      cases he'
      exact hknows
    · rw [hat] at he'
      rw [hsame.2.1] at hlo
      exact (hf.entries hk i e' hlo hge he' hc).mono hid hkept
  · have hold := hf.pending hp
    rw [hsame.2.2.1]
    -- what the next entry adds
    have hnext : ∀ i, k < i → i ≤ k + 1 → t.ConfigAt i → e.isConfig = true := by
      rintro i hlo hhi ⟨e', he', hc⟩
      obtain rfl : i = k + 1 := by omega
      rw [hat, he] at he'
      cases he'
      exact hc
    rcases hcases with ⟨hplain, rfl⟩ | ⟨hc, hzero, ⟨hle, hzero', _⟩ | ⟨hgt, rfl⟩⟩
    · have hskip : ∀ i, k < i → i ≤ k + 1 → ¬ t.ConfigAt i := fun i hlo hhi hc => by
        rw [hnext i hlo hhi hc] at hplain
        cases hplain
      rcases hold with ⟨hzero, hno⟩ | ⟨hlo, hhi, hc, hno⟩
      · refine Or.inl ⟨hzero, fun i hi hi' hc => ?_⟩
        rcases Nat.lt_or_ge k i with hlt | hge
        · exact hskip i hlt hi' hc
        · exact hno i hi hge ((hconf i).mp hc)
      · refine Or.inr ⟨hlo, Nat.le_succ_of_le hhi, (hconf _).mpr hc, fun i hi hi' hc => ?_⟩
        rcases Nat.lt_or_ge k i with hlt | hge
        · exact hskip i hlt hi' hc
        · exact hno i hi hge ((hconf i).mp hc)
    · refine Or.inl ⟨hzero', fun i hi hi' => ?_⟩
      omega
    · refine Or.inr ⟨hgt, Nat.le_refl _, ⟨e, (hat _).trans he, hc⟩, fun i hi hi' => ?_⟩
      exact absurd hi (Nat.not_lt.mpr hi')

theorem lwp_restoreLoop {Q : Option Folded → Node σ → Prop} {count : Nat} (hf : Folding W s k f)
    (hbase : s.baseIndex ≤ k) (hcount : k + count = s.lastIndex) (hnone : ∀ s', Q none s')
    (hq : ∀ s' f', SameLog s s' → Folding W s' s'.lastIndex f' → Q (some f') s') :
    LWp W (restoreLoop (List.range' (k + 1) count) f) Q s := by
  induction count generalizing k f s with
  | zero =>
    refine LWp.of_pure (hq s f (SameLog.refl s) ?_)
    rwa [← hcount]
  | succ count ih =>
    rw [List.range'_succ]
    refine LWp.bind (lwp_ask (fun _ => entryAt_ok (by omega) (by omega) hf.log_ne) fun e he => ?_)
    refine LWp.bind (LWp.of_get ?_)
    cases hstep : foldEntry s.commit (k + 1) f e with
    | none => exact LWp.of_pure (hnone s)
    | some f' =>
      refine LWp.bind (LWp.of_modify ?_)
      have hf' := hf.step (entryAt_eq_ok.mp he) hstep
      have hsame := SameLog.ensurePeers (e.oldVoters ||| e.newVoters) s
      generalize s.ensurePeers (e.oldVoters ||| e.newVoters) = t at hf' hsame ⊢
      have hlast : t.lastIndex = s.lastIndex := by
        unfold Node.lastIndex
        rw [hsame.1, hsame.2.1]
      refine ih hf' ?_ ?_ fun s' f'' hsame' => hq s' f'' (hsame.trans hsame')
      · rw [hsame.2.1]
        omega
      · rw [hlast]
        omega

end Folding

/-- What a node has before its log is folded. -/
structure Unfolded (W : Watch) (s : Node σ) : Prop where
  running : s.faulted = false
  own : 0 < s.id ∧ s.id ≤ 64
  tame : Tame s
  base : s.baseIndex ≤ s.applied
  applied : s.applied ≤ s.commit
  voters : W.known → s.Knows (s.votersOld ||| s.votersNew)
  /-- The entry at the base changes no voters. -/
  head : ∃ e l, s.log = e :: l ∧ e.isConfig = false
  free : ∀ i e, ¬ W.keep i e

/-- An entry is the one at the base, or has an index behind it. -/
theorem mem_log {e : Entry} (he : e ∈ s.log) :
    s.log.head? = some e ∨ ∃ i, s.baseIndex < i ∧ i ≤ s.lastIndex ∧ s.entryAt? i = some e := by
  obtain ⟨k, hk⟩ := List.mem_iff_getElem?.mp he
  have hlen := (List.getElem?_eq_some_iff.mp hk).1
  cases k with
  | zero => exact Or.inl (by rw [List.head?_eq_getElem?]; exact hk)
  | succ k =>
    refine Or.inr ⟨s.baseIndex + (k + 1), by omega, ?_, ?_⟩
    · unfold Node.lastIndex
      omega
    · unfold Node.entryAt? Node.offset Node.lastIndex
      rw [if_neg (by omega)]
      rwa [Nat.add_sub_cancel_left]

theorem lwp_restore (hu : Unfolded W s) : LWp W restore (EndsSafe W) s := by
  obtain ⟨e, l, hlog, hplain⟩ := hu.head
  have hne : s.log ≠ [] := by
    rw [hlog]
    exact List.cons_ne_nil e l
  have hlen := List.length_pos_iff.mpr hne
  have hfail : ∀ s' : Node σ, LWp W (failStorage : NodeM σ Unit) (EndsSafe W) s' := fun _ =>
    lwp_failStorage fun _ hs' => Or.inl hs'
  refine LWp.bind (LWp.of_get (LWp.ite (fun _ => hfail s) fun hle => LWp.bind ?_))
  have hf : Folding W s s.baseIndex ⟨s.votersOld, s.votersNew, 0⟩ :=
    ⟨hu.running, hne, hu.own, hu.tame, hu.voters, fun _ i _ hlo hhi => absurd hlo (Nat.not_lt.mpr hhi),
      fun _ => Or.inl ⟨rfl, fun i hi hi' => by
        have := Nat.le_trans hu.base hu.applied
        omega⟩⟩
  refine LWp.bind (LWp.of_get (LWp.bind ?_))
  refine lwp_restoreLoop hf (Nat.le_refl _) ?_ (fun s' => LWp.of_pure (hfail s'))
    fun s' f' hsame hf' => ?_
  · unfold Node.lastIndex
    omega
  refine LWp.bind (LWp.of_modify (LWp.of_pure (LWp.of_pure (Or.inr ?_))))
  have hlast : s'.lastIndex = s.lastIndex := by
    unfold Node.lastIndex
    rw [hsame.1, hsame.2.1]
  refine { running := hf'.running, log_ne := hf'.log_ne, own := hf'.own, tame := hf'.tame
           bounds := fun _ => ?_, voters := hf'.voters, entries := fun hk e' he' hc => ?_
           kept := fun i e hk => absurd hk (hu.free i e), pending := hf'.pending }
  · show s'.baseIndex ≤ s'.applied ∧ s'.applied ≤ s'.commit ∧ s'.commit ≤ s'.lastIndex
    rw [hlast, hsame.2.1, hsame.2.2.1, hsame.2.2.2]
    exact ⟨hu.base, hu.applied, Nat.le_of_not_lt hle⟩
  · rcases mem_log (s := s') he' with hhead | ⟨i, hlo, hhi, hat⟩
    · rw [hsame.1, hlog] at hhead
      cases hhead
      rw [hplain] at hc
      cases hc
    · exact hf'.entries hk i e' hlo hhi hat hc

/-- A new node, before anything was recovered. -/
theorem newNodeWithStore_cases {id timeout : Nat} {peers : List Nat} {store : σ}
    (h : newNodeWithStore id peers timeout store = .ok s) :
    ∃ voters, initialVoters id peers = .ok voters ∧ s = {
      id := id, peers := peers, timeout := timeout, votersOld := voters, store := store } := by
  obtain ⟨voters, hv, h⟩ := bind_eq_ok.mp h
  cases h
  exact ⟨voters, hv, rfl⟩

theorem own_of_initialVoters {id : Nat} {peers : List Nat} {voters : Word}
    (hv : initialVoters id peers = .ok voters) : 0 < id ∧ id ≤ 64 := by
  obtain ⟨own, hown, _⟩ := bind_eq_ok.mp hv
  obtain ⟨h0, h64, _⟩ := range_of_nodeBit hown
  exact ⟨h0, h64⟩

theorem knows_initialVoters {voters : Word} (hv : initialVoters s.id s.peers = .ok voters) :
    s.Knows (voters ||| 0) := by
  rw [show voters ||| 0 = voters from BitVec.or_zero]
  exact fun id hid => (member_initialVoters hv).mp hid

/-- The order of the indexes, and that nothing but a full outbound queue panics. -/
def totalWatch : Watch where
  settled := True
  total := True
  total_settled _ := trivial

section Recovered

variable {id timeout : Nat} {peers : List Nat} {store : σ}

/-- A new node is local. -/
theorem local_new (hfree : ∀ i e, ¬ W.keep i e)
    (h : newNodeWithStore id peers timeout store = .ok s) : Local W s := by
  obtain ⟨voters, hv, rfl⟩ := newNodeWithStore_cases h
  refine { running := rfl, log_ne := List.cons_ne_nil _ _, own := own_of_initialVoters hv
           tame := tame_of_initialVoters id hv
           bounds := fun _ => ⟨Nat.le_refl 0, Nat.le_refl 0, Nat.le_refl 0⟩
           voters := fun _ => knows_initialVoters hv, entries := fun _ e he hc => ?_
           kept := fun i e hk => absurd hk (hfree i e)
           pending := fun _ => Or.inl ⟨rfl, fun i hi hi' => absurd hi (Nat.not_lt.mpr hi')⟩ }
  rw [List.mem_singleton.mp he] at hc
  cases hc

theorem built_eq_ok {prog : NodeM σ Unit} {n : Node σ} (h : built prog n = .ok s) :
    prog n = .ok () s := by
  unfold built at h
  split at h
  · rename_i heq
    cases h
    exact heq
  · cases h

theorem lwp_restoreSnapshot {hard : HardState} {snapshot : Snapshot} {suffix : List Entry}
    (hrunning : s.faulted = false) (hown : 0 < s.id ∧ s.id ≤ 64) (htame : Tame s)
    (hfree : ∀ i e, ¬ W.keep i e) :
    LWp W (restoreSnapshot hard snapshot suffix) (EndsSafe W) s := by
  refine LWp.bind (LWp.of_modify (LWp.ite (fun _ => lwp_failStorage fun _ hs' => Or.inl hs') fun _ =>
    LWp.bind (LWp.of_modify ?_)))
  obtain ⟨n, hn⟩ : ∃ n, n = { s with
      term := hard.term, votedFor := hard.votedFor, baseIndex := snapshot.lastIndex
      baseTerm := snapshot.lastTerm, snapshot := snapshot
      votersOld := snapshot.oldVoters, votersNew := snapshot.newVoters } := ⟨_, rfl⟩
  rw [← hn]
  have htame₁ : Tame n := by
    rw [hn]
    exact htame
  obtain ⟨_, hknows⟩ := ensurePeers_knows (snapshot.oldVoters ||| snapshot.newVoters) n
  have htame' := htame₁.ensurePeers (snapshot.oldVoters ||| snapshot.newVoters)
  have hcore := ensurePeers_core (snapshot.oldVoters ||| snapshot.newVoters) n
  generalize n.ensurePeers _ = t at hknows htame' hcore ⊢
  rw [hn] at hcore
  simp only [Node.core, Prod.mk.injEq] at hcore
  obtain ⟨hid, _, _, hbase, _, _, hold, hnew, _, hfaulted⟩ := hcore
  refine LWp.bind (LWp.of_modify (lwp_restore {
    running := hfaulted.trans hrunning, own := ?_, tame := htame', base := Nat.le_of_eq hbase
    applied := Nat.le_max_right _ _, voters := fun _ => ?_, head := ⟨_, _, rfl, rfl⟩
    free := hfree }))
  · show 0 < t.id ∧ t.id ≤ 64
    rwa [hid]
  · show t.Knows (t.votersOld ||| t.votersNew)
    rwa [hold, hnew]

/-- A rebuilt node is local or stopped, whatever the store returned. -/
theorem local_recover {recovery : Recovery} (hfree : ∀ i e, ¬ W.keep i e)
    (h : recover id peers timeout store recovery = .ok s) : Safe W s := by
  unfold recover at h
  split at h
  · obtain ⟨n, hn, h⟩ := bind_eq_ok.mp h
    obtain ⟨voters, hv, rfl⟩ := newNodeWithStore_cases hn
    exact (lwp_restoreSnapshot rfl (own_of_initialVoters hv) (tame_of_initialVoters id hv)
      hfree).elim (built_eq_ok h)
  · obtain ⟨n, hn, h⟩ := bind_eq_ok.mp h
    obtain ⟨voters, hv, rfl⟩ := newNodeWithStore_cases hn
    rw [if_neg (List.cons_ne_nil _ _)] at h
    refine (lwp_restore ?_).elim (built_eq_ok h)
    exact {
      running := rfl, own := own_of_initialVoters hv, tame := tame_of_initialVoters id hv
      base := Nat.le_refl 0, applied := Nat.zero_le _, voters := fun _ => knows_initialVoters hv
      head := ⟨_, _, rfl, rfl⟩, free := hfree }

/-- A node is rebuilt, whatever the store returned, when its peers may be configured. -/
theorem recover_total {voters : Word} (hv : initialVoters id peers = .ok voters) (timeout : Nat)
    (store : σ) (recovery : Recovery) :
    ∃ s, recover id peers timeout store recovery = .ok s := by
  have hbuilt : ∀ {prog : NodeM σ Unit} {n : Node σ}, LWp totalWatch prog (EndsSafe totalWatch) n →
      Emits 0 prog → Tame n → n.outbound = [] → ∃ s, built prog n = .ok s := by
    intro prog n hw he htame hout
    obtain ⟨_, s, hrun, _⟩ := hw.total trivial he htame (by rw [hout]; decide)
    refine ⟨s, ?_⟩
    unfold built
    rw [hrun]
  have htame : ∀ n : Node σ, n.peers = peers → Tame n := fun n hn =>
    tame_of_initialVoters id (by rw [hn]; exact hv)
  unfold recover newRecoveredNodeWithSnapshot newRecoveredNode newNodeWithStore
  rw [hv]
  split
  · exact hbuilt (lwp_restoreSnapshot rfl (own_of_initialVoters hv) (htame _ rfl) fun _ _ => False.elim)
      (emits_restoreSnapshot _ _ _) (htame _ rfl) rfl
  · refine hbuilt (lwp_restore ?_) emits_restore (htame _ rfl) rfl
    rw [if_neg (List.cons_ne_nil _ _)]
    exact {
      running := rfl, own := own_of_initialVoters hv, tame := htame _ rfl, base := Nat.le_refl 0
      applied := Nat.zero_le _, voters := False.elim, head := ⟨_, _, rfl, rfl⟩
      free := fun _ _ => False.elim }

/-- A rebuilt node has nothing to send. -/
theorem recover_silent {recovery : Recovery}
    (h : recover id peers timeout store recovery = .ok s) : s.outbound = [] := by
  have hbuilt : ∀ {prog : NodeM σ Unit} {n : Node σ}, Emits 0 prog → Tame n → n.outbound = [] →
      built prog n = .ok s → s.outbound = [] := by
    intro prog n he htame hout h
    have hcount := he n htame
    rw [built_eq_ok h, hout] at hcount
    exact List.eq_nil_of_length_eq_zero (Nat.le_zero.mp hcount.2)
  unfold recover at h
  split at h
  · obtain ⟨n, hn, h⟩ := bind_eq_ok.mp h
    obtain ⟨voters, hv, rfl⟩ := newNodeWithStore_cases hn
    exact hbuilt (emits_restoreSnapshot _ _ _) (tame_of_initialVoters id hv) rfl h
  · obtain ⟨n, hn, h⟩ := bind_eq_ok.mp h
    obtain ⟨voters, hv, rfl⟩ := newNodeWithStore_cases hn
    rw [if_neg (List.cons_ne_nil _ _)] at h
    refine hbuilt emits_restore ?_ rfl h
    exact tame_of_initialVoters id hv

end Recovered

/-! ## Applying and compacting -/

theorem lwp_applyNext {first count : Nat} {dst : List Entry} :
    LWp {} ((List.range' first count).foldlM applyNext dst) (fun out s' =>
      s' = { s with applied := if count = 0 then s.applied else first + count - 1 } ∧
      out = dst ++ (List.range' first count).filterMap fun index => do
        let entry ← s.entryAt? index
        if entry.kind = .normal then some entry else none) s := by
  induction count generalizing first dst s with
  | zero => exact LWp.of_pure ⟨rfl, (List.append_nil dst).symm⟩
  | succ count ih =>
    rw [List.range'_succ]
    refine LWp.bind (LWp.bind (LWp.of_modify (LWp.bind (lwp_ask False.elim fun e he =>
      LWp.of_pure (ih.mono ?_)))))
    rintro out s' ⟨rfl, rfl⟩
    have hat : s.entryAt? first = some e := entryAt_eq_ok.mp he
    refine ⟨?_, ?_⟩
    · by_cases hzero : count = 0
      · simp [hzero]
      · simp only [hzero, if_false, Nat.add_eq_zero_iff, Nat.one_ne_zero, and_false]
        rw [show first + 1 + count - 1 = first + (count + 1) - 1 by omega]
    · rw [List.filterMap_cons, hat]
      by_cases hkind : e.kind = .normal
      · simp only [hkind, if_true, Option.bind_eq_bind, Option.bind_some, List.append_assoc]
        rfl
      · simp only [hkind, if_false, Option.bind_eq_bind, Option.bind_some]
        rfl

theorem applyEntries_ok {out : List Entry} (h : applyEntries s = .ok out s') :
    s' = { s with applied := max s.applied s.commit } ∧ out = s.unapplied s.commit := by
  refine LWp.elim (W := {}) (Q := fun out s' => s' = { s with applied := max s.applied s.commit } ∧
    out = s.unapplied s.commit) ?_ h
  refine LWp.bind (LWp.of_get (lwp_applyNext.mono ?_))
  rintro out s' ⟨rfl, rfl⟩
  refine ⟨?_, List.nil_append _⟩
  congr 1
  split <;> omega

/-- What a compaction leaves behind. -/
inductive Compacting (s : Node σ) (index : Nat) (state : List UInt8) : Node σ → Prop
  | refused : Compacting s index state s
  | stopped {s' : Node σ} (hstopped : s'.Stopped) (hsame : SameLog s s') : Compacting s index state s'
  | compacted {store : σ} {term : Nat} (hbase : s.baseIndex < index) (happlied : index ≤ s.applied)
    (hterm : s.termAt index = some term) : Compacting s index state { s with
      store := store, log := s.log.drop (index - s.baseIndex), baseIndex := index, baseTerm := term
      snapshot := { lastIndex := index, lastTerm := term, state := state
                    oldVoters := s.votersOld, newVoters := s.votersNew } }

theorem compact_ok [StableStore σ] {index : Nat} {state : List UInt8} {ok : Bool}
    (h : compact index state s = .ok ok s') : Compacting s index state s' := by
  refine LWp.elim (W := {}) (Q := fun _ => Compacting s index state) ?_ h
  refine LWp.bind (LWp.of_get (LWp.ite (fun _ => LWp.of_pure .refused) fun hno => ?_))
  simp only [Bool.or_eq_true, decide_eq_true_eq, not_or, Nat.not_le, Nat.not_lt] at hno
  cases hterm : s.termAt index with
  | none => exact LWp.of_pure .refused
  | some term =>
    -- a store call that fails changes nothing else
    have hcall : ∀ (store : σ) {call : σ → Option StoreError × σ} {Q : Bool → Node σ → Prop},
        (∀ store, Q true { s with store := store }) →
        (∀ s' : Node σ, s'.Stopped → SameLog s s' → Q false s') →
        LWp {} (tryStore call) Q { s with store := store } := by
      intro store call Q hok hfailed
      cases hc : (call store).1 with
      | none => exact LWp.of_ok (tryStore_ok hc) (hok _)
      | some err =>
        exact LWp.of_ok (tryStore_error hc) (hfailed _ (stopped_failed ..) ⟨rfl, rfl, rfl, rfl⟩)
    refine LWp.bind ?_
    unfold saveAndCompact
    split
    · exact LWp.bind (LWp.of_modify (LWp.of_pure (LWp.of_pure (.stopped
        ⟨rfl, Option.some_ne_none _, rfl, rfl⟩ ⟨rfl, rfl, rfl, rfl⟩))))
    · refine LWp.bind (hcall s.store (fun store => ?_) fun s' hs' hsame =>
        LWp.of_pure (LWp.of_pure (.stopped hs' hsame)))
      exact hcall store (fun store => LWp.bind (LWp.of_modify (LWp.of_pure
        (.compacted hno.1 hno.2 hterm)))) fun s' hs' hsame => LWp.of_pure (.stopped hs' hsame)

/-! ## Runs of a process -/

theorem exec_safe [StableStore σ] {op : Op} {out : Output} (hs : Safe W s)
    (hop : s.faulted = false → OpLocal W s op) (hexec : op.exec s = .ok out s') : Safe W s' := by
  rcases hs with hstopped | hl
  · exact Or.inl ((lwp_exec_stopped op hstopped).elim hexec)
  · exact (lwp_exec hl (hop hl.running)).elim hexec

namespace Proc

/-- What happens to a process. -/
inductive Event
  | op (op : Op)
  | restart (peers : List Nat) (timeout : Nat)
  deriving DecidableEq

variable [OpenStore σ] {id : Nat} {p p' : Proc σ}

/-- One event; `none` when it cannot happen. -/
def next (id : Nat) (p : Proc σ) : Event → Option (Proc σ)
  | .op op =>
    match p with
    | .up n =>
      match op.exec n with
      | .ok _ n' => some (.up n')
      | .error _ n' => some (.down n')
    | _ => none
  | .restart peers timeout => do
    let n ← p.node?
    let (store, recovery) ← OpenStore.reopen n.store
    match recover id peers timeout store recovery with
    | .ok n' => some (.up n')
    | .error _ => none

/-- A running node meets the condition of its operation. -/
def Meets (q : Node σ → Op → Prop) (p : Proc σ) : Event → Prop
  | .op op => ∀ s, p = .up s → s.faulted = false → q s op
  | .restart .. => True

instance (q : Node σ → Op → Prop) [∀ s op, Decidable (q s op)] (p : Proc σ) (ev : Event) :
    Decidable (p.Meets q ev) :=
  match ev with
  | .op op => inferInstanceAs (Decidable (∀ s, p = .up s → s.faulted = false → q s op))
  | .restart .. => isTrue trivial

/-- What a restart needs, and what it does. -/
theorem next_restart {peers : List Nat} {timeout : Nat}
    (h : p.next id (.restart peers timeout) = some p') : ∃ s store recovery s', p.node? = some s ∧
      OpenStore.reopen s.store = some (store, recovery) ∧
      recover id peers timeout store recovery = .ok s' ∧ p' = .up s' := by
  obtain ⟨s, hs, h⟩ := Option.bind_eq_some_iff.mp h
  obtain ⟨⟨store, recovery⟩, hopen, h⟩ := Option.bind_eq_some_iff.mp h
  cases hrec : recover id peers timeout store recovery with
  | error e => simp [hrec] at h
  | ok s' =>
    simp only [hrec, Option.some.injEq] at h
    exact ⟨s, store, recovery, s', hs, hopen, hrec, h.symm⟩

/-- The running node keeps what is local to it. -/
theorem next_local {ev : Event} (hfree : ∀ i e, ¬ W.keep i e) (hp : ∀ s, p = .up s → Safe W s) (hev : p.Meets (OpLocal W) ev)
    (hnext : p.next id ev = some p') (s : Node σ) (hs : p' = .up s) : Safe W s := by
  cases ev with
  | op op =>
    cases p with
    | absent => cases hnext
    | down n => cases hnext
    | up n =>
      cases hexec : op.exec n with
      | error e n' =>
        simp only [next, hexec, Option.some.injEq] at hnext
        rw [hs] at hnext
        cases hnext
      | ok out n' =>
        simp only [next, hexec, Option.some.injEq] at hnext
        rw [hs] at hnext
        cases hnext
        exact exec_safe (hp n rfl) (hev n rfl) hexec
  | restart peers timeout =>
    obtain ⟨_, store, recovery, s', _, _, hrec, hs'⟩ := next_restart hnext
    rw [hs] at hs'
    cases hs'
    exact local_recover hfree hrec

/-- Through operations and restarts, a running node keeps what is local to it. -/
theorem run_local {peers : List Nat} {timeout : Nat} {store : σ} {n : Node σ} {events : List Event}
    (hfree : ∀ i e, ¬ W.keep i e) (hnew : newNodeWithStore id peers timeout store = .ok n)
    (hmeets : Runs.Always (next id) (Meets (OpLocal W)) (.up n) events)
    (hrun : Runs.run (next id) (.up n) events = some (.up s)) : Safe W s := by
  refine Runs.run_invariant (I := fun p : Proc σ => ∀ s, p = .up s → Safe W s)
    (fun p ev p' hp hev hnext => next_local hfree hp hev hnext) (fun s hs => ?_) hmeets hrun s rfl
  cases hs
  exact Or.inr (local_new hfree hnew)

/-- A node that runs, or is stopped. -/
theorem run_free {peers : List Nat} {timeout : Nat} {store : σ} {n : Node σ} {events : List Event}
    (hnew : newNodeWithStore id peers timeout store = .ok n)
    (hrun : Runs.run (next id) (.up n) events = some (.up s)) : Safe {} s := by
  refine run_local (fun _ _ => False.elim) hnew ?_ hrun
  refine (Runs.always_of_forall (p := fun _ => True) fun _ _ => trivial).mono fun p ev _ => ?_
  cases ev with
  | op op => exact fun s _ _ => opLocal_free s op
  | restart peers timeout => trivial

end Proc

/-- What an event of a cluster is to one process. -/
def Event.at (id : Nat) : Event → Option Proc.Event
  | .op i operation => if i = id then some (.op operation) else none
  | .restart i peers timeout => if i = id then some (.restart peers timeout) else none

section Clusters

variable [OpenStore σ] {voters : Word} {c c' : Cluster σ}

/-- An event of a cluster is one of the process it names, and none of any other. -/
theorem Cluster.step_proc {ev : Event} (hstep : c.step voters ev = some c') (id : Nat) :
    match ev.at id with
    | some ev' => (c.procs id).next id ev' = some (c'.procs id)
    | none => c'.procs id = c.procs id := by
  cases ev with
  | op i op =>
    obtain ⟨s, hup, _, rfl⟩ := step_op.mp hstep
    unfold Cluster.execOp
    by_cases hi : i = id
    · subst hi
      simp only [Event.at, if_true, Proc.next, hup]
      cases op.exec s <;> simp
    · simp only [Event.at, if_neg hi]
      cases op.exec s <;> simp [Ne.symm hi]
  | restart i peers timeout =>
    obtain ⟨s, store, recovery, s', hs, _, hopen, hrec, rfl⟩ := step_restart.mp hstep
    by_cases hi : i = id
    · subst hi
      simp [Event.at, Proc.next, hs, hopen, hrec]
    · simp [Event.at, hi, Ne.symm hi]

/-- A run of a cluster is a run of each of its processes. -/
theorem Cluster.run_proc {events : List Event} (hrun : c.run voters events = some c') (id : Nat) :
    Runs.run (Proc.next id) (c.procs id) (events.filterMap (Event.at id)) = some (c'.procs id) := by
  induction events generalizing c with
  | nil =>
    cases hrun
    rfl
  | cons ev events ih =>
    obtain ⟨c₁, hstep, hrest⟩ := run_cons hrun
    have hnext := step_proc hstep id
    cases hat : Event.at id ev with
    | none =>
      rw [hat] at hnext
      rw [List.filterMap_cons_none hat, ← hnext]
      exact ih hrest
    | some ev' =>
      rw [hat] at hnext
      rw [List.filterMap_cons_some hat]
      exact Runs.run_cons.mpr ⟨_, hnext, ih hrest⟩

end Clusters

end Promtact.Raft
