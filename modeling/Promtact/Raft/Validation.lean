import Promtact.Raft.Along
import Promtact.Raft.Recorder
import Promtact.Raft.Restoring

/-!
# Entries that reach the store

A follower validates an entry that extends its log. An entry that replaces a conflicting one
is not looked at: the suffix is cut off first, and the entry is stored behind what is left
(`malformed_entry_is_stored`). A restart then refuses the log.

`appended_onAppend` says which entry an append hands to the store, for any node and message. What
is stored is valid where it is put exactly if the message replaces no conflicting entry, or its
entry is valid in the log that was cut back (`stored_entry_is_valid`).
-/

namespace Promtact.Raft

open GhostState (bind_of_ok)
open Node (indexes)

variable {σ α : Type} {s s' : Node σ} {m : Message}

/-- Running a program from a state; it does not panic. -/
abbrev Returns (f : NodeM σ α) (Q : α → Node σ → Prop) (s : Node σ) : Prop :=
  Along (fun _ => False) f Q s

theorem Returns.elim {f : NodeM σ α} {Q : α → Node σ → Prop} (hw : Returns f Q s) :
    ∃ a s', f s = .ok a s' ∧ Q a s' := by
  cases hf : f s with
  | ok a s' =>
    obtain ⟨_, _, hq⟩ := GhostState.Wp.elim_ok hw hf
    exact ⟨a, s', rfl, hq⟩
  | error e s' =>
    obtain ⟨_, _, hno⟩ := GhostState.Wp.elim_error hw hf
    exact hno.elim

theorem returns_ask {q : Node σ → Except Panic α} {Q : α → Node σ → Prop} {a : α} (hq : q s = .ok a)
    (h : Q a s) : Returns (ask q) Q s := Along.of_ok (run_ask hq) h

/-! ## Cutting back -/

/-- The entry of the message has another term than the one at its index. -/
def Node.Conflicts (s : Node σ) (m : Message) : Prop :=
  ∃ present ∈ s.termAt (m.logIndex + 1), present ≠ m.entry.term

/-- The node with its log cut back to just before the entry. -/
def Node.cutBack (s : Node σ) (m : Message) : Node σ :=
  finalState (truncateConflict (m.logIndex + 1) m.entry.term s)

/-- The calls of the store that a program makes. -/
def Node.callsIn {α : Type} [StableStore σ] (s : Node σ) (f : NodeM (Recorder σ) α) :
    List (StoreCall × Bool) :=
  (finalState (f (s.over ({ store := s.store } : Recorder σ) s.storageErr))).store.calls

/-- The last change of voters behind the commit index. -/
def Node.lastChange (s : Node σ) : Nat :=
  ((indexes (max (s.commit + 1) (s.baseIndex + 1)) s.lastIndex).filter fun i =>
    (s.entryAt? i).any Entry.isConfig).getLast?.getD 0

/-- The pending change is found again. -/
theorem returns_rebuildPendingConfig (hlog : s.log ≠ []) : Returns rebuildPendingConfig
    (fun _ => Meets { s with pendingConfig := s.lastChange }) s := by
  refine Along.bind (Along.of_modify (Along.bind (Along.of_get ?_)))
  have hindexes : ∀ i ∈ indexes (max (s.commit + 1) (s.baseIndex + 1)) s.lastIndex,
      ∃ e, s.entryAt i = .ok e := by
    intro i hi
    have hrange := mem_indexes.mp hi
    exact entryAt_ok (by omega) hrange.2 hlog
  -- the last change so far is in `p`
  have hloop : ∀ (l : List Nat) (p : Nat) (t : Node σ), (∀ i ∈ l, ∃ e, s.entryAt i = .ok e) →
      Meets { s with pendingConfig := p } t → Returns (l.forM fun index => do
        let entry ← ask (·.entryAt index)
        if entry.isConfig then
          modify fun n : Node σ => { n with pendingConfig := index }
          modify (Node.ensurePeers (entry.oldVoters ||| entry.newVoters)))
      (fun _ => Meets { s with pendingConfig :=
        (l.filter fun i => (s.entryAt? i).any Entry.isConfig).getLast?.getD p }) t := by
    intro l
    induction l with
    | nil => exact fun p t _ ht => Along.of_pure ht
    | cons i l ih =>
      rintro p t hall ⟨peers, next, matchIndex, rfl⟩
      obtain ⟨e, he⟩ := hall i List.mem_cons_self
      rw [List.filter_cons, entryAt_eq_ok.mp he, Option.any_some]
      refine Along.bind (Along.bind (returns_ask he (Along.ite (fun hconf => ?_) fun hplain => ?_)))
      · refine Along.bind (Along.of_modify (Along.of_modify ?_))
        rw [if_pos hconf, List.getLast?_cons, Option.getD_some]
        refine ih i _ (fun i' hi' => hall i' (List.mem_cons_of_mem _ hi')) ?_
        exact Meets.trans ⟨peers, next, matchIndex, rfl⟩ (Meets.ensurePeers _ _)
      · rw [if_neg hplain]
        exact Along.of_pure (ih p _ (fun i' hi' => hall i' (List.mem_cons_of_mem _ hi'))
          ⟨_, _, _, rfl⟩)
  exact hloop _ 0 _ hindexes ⟨_, _, _, rfl⟩

theorem truncateConflict_run (index term : Nat) : truncateConflict index term s =
    (match s.termAt index with
      | some present => if present ≠ term then do
          modify fun n => { n with log := n.log.take (index - n.baseIndex) }
          rebuildPendingConfig
        else pure ()
      | none => pure () : NodeM σ Unit) s := rfl

theorem truncateConflict_eq (h : ¬ s.Conflicts m) :
    truncateConflict (m.logIndex + 1) m.entry.term s = .ok () s := by
  rw [truncateConflict_run]
  cases hterm : s.termAt (m.logIndex + 1) with
  | none => rfl
  | some present =>
    have hsame : present = m.entry.term := by
      by_contra hne
      exact h ⟨present, hterm, hne⟩
    simp [hsame]
    rfl

theorem cutBack_of_agrees (h : ¬ s.Conflicts m) : s.cutBack m = s := by
  unfold Node.cutBack
  rw [truncateConflict_eq h]
  rfl

/-- The log is cut back behind an entry that the node holds. -/
theorem returns_truncateConflict (hlo : s.baseIndex ≤ m.logIndex) (h : s.Conflicts m) :
    Returns (truncateConflict (m.logIndex + 1) m.entry.term) (fun _ => Meets { s with
      log := s.log.take (m.logIndex + 1 - s.baseIndex)
      pendingConfig := ({ s with log := s.log.take (m.logIndex + 1 - s.baseIndex) } : Node σ).lastChange
      }) s := by
  obtain ⟨present, hterm, hne⟩ := h
  have hterm : s.termAt (m.logIndex + 1) = some present := hterm
  refine Along.bind (Along.of_get ?_)
  rw [hterm]
  refine Along.ite (fun _ => Along.bind (Along.of_modify ?_)) fun hno => absurd hne hno
  have hhi := (termAt_inLog hterm).2
  refine returns_rebuildPendingConfig (s := { s with
    log := s.log.take (m.logIndex + 1 - s.baseIndex) }) fun hnil => ?_
  have hlen := congrArg List.length hnil
  rw [List.length_take] at hlen
  unfold Node.lastIndex at hhi
  simp only [List.length_nil] at hlen
  omega

/-! ## The next entry of a restart -/

/-- What a node accepts at the end of its log, the fold accepts with the same voters and
pending index. -/
theorem foldEntry_of_valid {f : Folded} {e : Entry} (commit index : Nat)
    (hvalid : s.validNewEntry e = true) (hold : f.old = s.votersOld) (hnew : f.new = s.votersNew)
    (hpending : f.pending = s.pendingConfig) : foldEntry commit index f e ≠ none := by
  unfold Node.validNewEntry at hvalid
  unfold foldEntry
  rw [hold, hnew, hpending]
  cases hkind : e.kind with
  | normal =>
    simp only [hkind, Bool.and_eq_true, decide_eq_true_eq] at hvalid
    simp [hvalid.1.1, hvalid.1.2]
  | noop =>
    simp only [hkind, Bool.and_eq_true, decide_eq_true_eq] at hvalid
    simp [hvalid.1.1.1, hvalid.1.1.2, hvalid.1.2, hvalid.2]
  | jointConfig =>
    simp only [hkind, Bool.and_eq_true, decide_eq_true_eq, ne_eq] at hvalid
    obtain ⟨⟨⟨⟨hzero, hnone⟩, hsame⟩, hne⟩, hne'⟩ := hvalid
    rw [hsame] at hne
    simp only [hzero, hnone, hsame, hne, hne', ne_eq, not_true_eq_false, decide_false, Bool.or_self,
      Bool.false_eq_true, if_false]
    split <;> exact Option.some_ne_none _
  | finalConfig =>
    simp only [hkind, Bool.and_eq_true, decide_eq_true_eq, ne_eq] at hvalid
    obtain ⟨⟨⟨hzero, hsome⟩, hsame⟩, hnone⟩ := hvalid
    simp only [hzero, hsome, hsame, hnone, ne_eq, not_true_eq_false, decide_false, Bool.or_self,
      Bool.false_eq_true, if_false]
    split <;> exact Option.some_ne_none _
  | other code => simp [hkind] at hvalid

/-- A restart accepts the log of `s` and comes to the voters and the pending index of `s`. -/
def Node.Restores (r s : Node σ) : Prop :=
  r.log = s.log ∧ r.baseIndex = s.baseIndex ∧ ∃ r', restoreConfigurationState r = .ok true r' ∧
    r'.votersOld = s.votersOld ∧ r'.votersNew = s.votersNew ∧ r'.pendingConfig = s.pendingConfig

/-- A restart that accepts a log accepts a valid entry behind it. -/
theorem Node.Restores.next {r : Node σ} {e : Entry} (h : r.Restores s) (hlog : s.log ≠ [])
    (hvalid : s.validNewEntry e = true) :
    ∃ r', restoreConfigurationState { r with log := r.log ++ [e] } = .ok true r' := by
  obtain ⟨hsame, _, r', hrun, hold, hnew, hpending⟩ := h
  have hne : r.log ≠ [] := by rwa [hsame]
  obtain ⟨r₁, ⟨_, _, _, rfl⟩, heq⟩ := restoreConfigurationState_eq hne
  rw [heq] at hrun
  cases hfolds : r.folds with
  | none =>
    rw [hfolds] at hrun
    cases hrun
  | some f =>
    rw [hfolds] at hrun
    cases hrun
    have htail : (r.log ++ [e]).tail = r.log.tail ++ [e] := List.tail_append_of_ne_nil hne
    obtain ⟨r₂, _, heq'⟩ := restoreConfigurationState_eq (s := { r with log := r.log ++ [e] })
      (by simp)
    have hnext : ({ r with log := r.log ++ [e] } : Node σ).folds ≠ none := by
      show foldEntries r.commit r.baseIndex ⟨r.votersOld, r.votersNew, 0⟩ (r.log ++ [e]).tail ≠ none
      rw [htail, foldEntries_append, show foldEntries r.commit r.baseIndex _ r.log.tail = some f
        from hfolds]
      have hentry := foldEntry_of_valid r.commit (r.baseIndex + r.log.tail.length + 1) hvalid
        hold hnew hpending
      cases hf : foldEntry r.commit (r.baseIndex + r.log.tail.length + 1) f e with
      | none => exact absurd hf hentry
      | some f' =>
        simp only [Option.bind_some, foldEntries, hf]
        exact Option.some_ne_none _
    rw [heq']
    cases hf : ({ r with log := r.log ++ [e] } : Node σ).folds with
    | none => exact absurd hf hnext
    | some f' => exact ⟨_, rfl⟩

/-! ## What is stored -/

/-- The entry of the message takes the place of another one. -/
def Node.Replaces (s : Node σ) (m : Message) : Prop :=
  s.rejectsAppend m = false ∧ m.hasEntry = true ∧ s.Conflicts m

/-- The entry of the message is handed to the store. -/
def Node.Appends (s : Node σ) (m : Message) : Prop :=
  s.rejectsAppend m = false ∧ m.hasEntry = true ∧ m.logIndex = (s.cutBack m).lastIndex

instance : Decidable (s.Appends m) := inferInstanceAs (Decidable (_ ∧ _ ∧ _))

/-- What an append that is not refused finds at the index before its entry. -/
theorem inLog_of_accepted (h : s.rejectsAppend m = false) :
    s.baseIndex ≤ m.logIndex ∧ m.logIndex ≤ s.lastIndex ∧ s.log ≠ [] := by
  simp only [Node.rejectsAppend, Bool.or_eq_false_iff, decide_eq_false_iff_not, not_not] at h
  obtain ⟨e, he, _⟩ := Option.map_eq_some_iff.mp h.1.2
  obtain ⟨hlo, hhi, hmem⟩ := entryAt?_inLog he
  exact ⟨hlo, hhi, List.ne_nil_of_mem hmem⟩

/-- Taking over the role of a follower, and another store, is nothing that cutting back sees. -/
theorem returns_cutBack {τ : Type} {t : Node τ} (haccepts : s.rejectsAppend m = false)
    (ht : t = { s with
      state := .follower, leader := m.fromID, elapsed := 0, store := t.store
      storageErr := t.storageErr }) :
    Returns (truncateConflict (m.logIndex + 1) m.entry.term) (fun _ t' => t'.store = t.store ∧
      t'.lastIndex = (s.cutBack m).lastIndex) t := by
  obtain ⟨hlo, _, _⟩ := inLog_of_accepted haccepts
  by_cases hconf : s.Conflicts m
  · obtain ⟨_, s₁, hrun, peers, next, matchIndex, hs₁⟩ := (returns_truncateConflict hlo hconf).elim
    have hcut : s.cutBack m = s₁ := by
      unfold Node.cutBack
      rw [hrun]
      rfl
    have hconf' : t.Conflicts m := by
      rw [ht]
      exact hconf
    have hlo' : t.baseIndex ≤ m.logIndex := by
      rw [ht]
      exact hlo
    refine (returns_truncateConflict hlo' hconf').mono ?_
    rintro _ _ ⟨_, _, _, rfl⟩
    refine ⟨rfl, ?_⟩
    rw [hcut, hs₁]
    unfold Node.lastIndex
    rw [ht]
  · have hagrees : ¬ t.Conflicts m := by
      rw [ht]
      exact hconf
    refine Along.of_ok (truncateConflict_eq hagrees) ⟨rfl, ?_⟩
    rw [cutBack_of_agrees hconf]
    unfold Node.lastIndex
    rw [ht]

/-- The log behind which a replacing entry is put. -/
theorem cutBack_of_replaces (h : s.Replaces m) :
    (s.cutBack m).lastIndex = m.logIndex ∧ (s.cutBack m).log ≠ [] := by
  obtain ⟨haccepts, _, hconf⟩ := h
  obtain ⟨hlo, _, hne⟩ := inLog_of_accepted haccepts
  obtain ⟨_, s₁, hrun, _, _, _, hs₁⟩ := (returns_truncateConflict hlo hconf).elim
  have hcut : s.cutBack m = s₁ := by
    unfold Node.cutBack
    rw [hrun]
    rfl
  obtain ⟨present, hterm, _⟩ := hconf
  have hhi := (termAt_inLog hterm).2
  have hpos := List.length_pos_iff.mpr hne
  have hlen : (s.log.take (m.logIndex + 1 - s.baseIndex)).length = m.logIndex + 1 - s.baseIndex := by
    rw [List.length_take]
    unfold Node.lastIndex at hhi
    omega
  rw [hcut, hs₁]
  refine ⟨?_, List.ne_nil_of_length_pos (by simp only [hlen]; omega)⟩
  unfold Node.lastIndex
  simp only [hlen]
  omega

section Stored

variable [StableStore σ]

/-- The entries that were handed to the store. -/
def Recorder.appended (r : Recorder σ) : List (Nat × Entry) :=
  r.calls.filterMap fun
    | (.append index entry, _) => some (index, entry)
    | _ => none

omit [StableStore σ] in
theorem Recorder.mem_appended {r : Recorder σ} {i : Nat} {e : Entry} :
    (i, e) ∈ r.appended ↔ ∃ ok, (StoreCall.append i e, ok) ∈ r.calls := by
  unfold appended
  rw [List.mem_filterMap]
  constructor
  · rintro ⟨⟨call, ok⟩, hcall, heq⟩
    cases call with
    | append index entry =>
      cases heq
      exact ⟨ok, hcall⟩
    | _ => cases heq
  · rintro ⟨ok, hcall⟩
    exact ⟨_, hcall, rfl⟩

/-- The entries that were handed to the store are these. -/
abbrev Handed (entries : List (Nat × Entry)) : Node (Recorder σ) → Prop :=
  Held fun _ _ _ r => r.appended = entries

instance {entries : List (Nat × Entry)} :
    StoresHard (Holding (σ := Recorder σ) fun _ _ _ r => r.appended = entries) where
  hard {s hard} _ hs := by
    show ((s.store.calls ++ [_]).filterMap _ : List (Nat × Entry)) = entries
    rw [List.filterMap_append]
    exact (List.append_nil _).trans hs

/-- Nothing more is handed over behind the entry. -/
theorem handed_followCommit {entries : List (Nat × Entry)} {t : Node (Recorder σ)} {answer : Message}
    (ht : Handed entries t) : Along (Handed entries) (do
      if !(← followCommit m) then return
      send answer) (fun _ => Handed entries) t := by
  refine Along.bind (((within_followCommit m).along ht).mono fun ok t' ht' => ?_)
  exact Along.ite (fun _ => Along.of_pure ht') fun _ => Along.of_send ht' ht'

/-- What an append hands to the store. -/
theorem appended_onAppend (s : Node σ) (m : Message) :
    Handed (if s.Appends m then [(m.logIndex + 1, m.entry)] else [])
      (finalState (onAppend m (s.over { store := s.store } s.storageErr))) := by
  refine Along.final ?_
  refine Along.bind (Along.of_get (Along.ite (fun hrejects => ?_) fun haccepts => ?_))
  · rw [if_neg fun happ => absurd (happ.1.symm.trans hrejects) Bool.false_ne_true]
    exact Along.of_send rfl rfl
  have haccepts : s.rejectsAppend m = false := Bool.eq_false_iff.mpr haccepts
  refine Along.bind (Along.of_modify (Along.bind ?_))
  by_cases hentry : m.hasEntry = true
  · -- the log is cut back without a call
    refine Along.ite (fun hno => absurd hno (by simp [hentry])) fun _ => Along.bind ?_
    obtain ⟨_, t, hrun, hstore, hlast⟩ := (returns_cutBack (t := { s.over
      ({ store := s.store } : Recorder σ) s.storageErr with
        state := .follower, leader := m.fromID, elapsed := 0 }) haccepts rfl).elim
    refine Along.of_ok hrun (Along.bind (Along.of_get ?_))
    have hnone : t.store.appended = [] := by
      rw [hstore]
      rfl
    by_cases hend : m.logIndex = (s.cutBack m).lastIndex
    · rw [if_pos ⟨haccepts, hentry, hend⟩]
      rw [if_neg (by rw [hlast, ← hend]; simp)]
      have hcall : ((StableStore.append (m.logIndex + 1) m.entry t.store).2).appended =
          [(m.logIndex + 1, m.entry)] := by
        show ((t.store.calls ++ [_]).filterMap _ : List (Nat × Entry)) = _
        rw [List.filterMap_append]
        exact congrArg (· ++ _) hnone
      refine Along.bind (Along.of_tryStore (fun _ => ?_) fun err _ => ?_)
      · refine Along.bind (Along.of_modify ?_)
        refine Along.ite (fun _ => ?_) fun _ => Along.of_pure (handed_followCommit hcall)
        refine Along.bind (Along.of_modify (Along.bind (Along.of_modify (Along.of_pure ?_))))
        exact handed_followCommit (Effect.ensurePeers (R := Holding _) _ _ hcall)
      · exact Along.of_pure (Along.ite (fun _ => Along.of_pure hcall) fun hok => absurd rfl hok)
    · rw [if_neg fun happ => hend happ.2.2, if_pos (by rw [hlast]; omega)]
      exact Along.of_pure (handed_followCommit hnone)
  · rw [if_neg fun happ => hentry happ.2.1]
    refine Along.ite (fun _ => Along.of_pure (handed_followCommit rfl)) fun hno => ?_
    simp only [Bool.not_eq_true', Bool.not_eq_false] at hno
    exact absurd hno hentry

/-- An entry that an append hands to the store is valid there. It is the one of the message, it
comes one past the log, `validNewEntry` accepts it in the state with the log cut back to just
before it, and a restart that accepts that log accepts it with the entry as well. -/
def Node.StoresValid (s : Node σ) (m : Message) : Prop :=
  ∀ i e ok, (StoreCall.append i e, ok) ∈ s.callsIn (onAppend m) →
    e = m.entry ∧ i = (s.cutBack m).lastIndex + 1 ∧ (s.cutBack m).validNewEntry e = true ∧
      ∀ r : Node σ, r.Restores (s.cutBack m) →
        ∃ r', restoreConfigurationState { r with log := r.log ++ [e] } = .ok true r'

/-- What an append hands to the store is valid where it is put, exactly if the message replaces no
conflicting entry, or its entry is valid in the node with the log cut back. -/
theorem stored_entry_is_valid (s : Node σ) (m : Message) : s.StoresValid m ↔
    (s.Replaces m → (s.cutBack m).validNewEntry m.entry = true) := by
  have hcalls : ∀ i e, (∃ ok, (StoreCall.append i e, ok) ∈ s.callsIn (onAppend m)) ↔
      s.Appends m ∧ i = m.logIndex + 1 ∧ e = m.entry := by
    intro i e
    have happended := appended_onAppend s m
    refine Recorder.mem_appended.symm.trans ?_
    rw [show (finalState (onAppend m (s.over ({ store := s.store } : Recorder σ)
      s.storageErr))).store.appended = _ from happended]
    split <;> simp_all
  constructor
  · intro hvalid hreplaces
    obtain ⟨hend, _⟩ := cutBack_of_replaces hreplaces
    obtain ⟨ok, hcall⟩ := (hcalls _ _).mpr ⟨⟨hreplaces.1, hreplaces.2.1, hend.symm⟩, rfl, rfl⟩
    exact (hvalid _ _ ok hcall).2.2.1
  · intro hreplaced i e ok hcall
    obtain ⟨⟨haccepts, hentry, hend⟩, rfl, rfl⟩ := (hcalls i e).mp ⟨ok, hcall⟩
    -- an entry at the end of the log was looked at, one that replaces another was not
    have hboth : (s.cutBack m).validNewEntry m.entry = true ∧ (s.cutBack m).log ≠ [] := by
      by_cases hconf : s.Conflicts m
      · have hreplaces : s.Replaces m := ⟨haccepts, hentry, hconf⟩
        exact ⟨hreplaced hreplaces, (cutBack_of_replaces hreplaces).2⟩
      · rw [cutBack_of_agrees hconf] at hend ⊢
        refine ⟨?_, (inLog_of_accepted haccepts).2.2⟩
        simp only [Node.rejectsAppend, Bool.or_eq_false_iff, hentry, hend] at haccepts
        simpa using haccepts.2
    exact ⟨rfl, by rw [hend], hboth.1, fun r hr => hr.next hboth.2 hboth.1⟩

end Stored

/-! A new follower of three nodes gets the entry of an election, and then an entry of a later
term in its place, which changes the voters and names no old ones. -/

def newFollower : Node Disk where
  id := 2
  peers := [1, 3]
  timeout := 2
  votersOld := 7
  store := {}

def electionAppend : Message := {
  type := .append, fromID := 1, toID := 2, term := 1
  entry := { term := 1, kind := .noop }, hasEntry := true }

def malformedAppend : Message := {
  type := .append, fromID := 3, toID := 2, term := 2
  entry := { term := 2, kind := .jointConfig, newVoters := 7 }, hasEntry := true }

/-- An entry of a later term in the place of the first one, which is a valid one. -/
def replacingAppend : Message := {
  type := .append, fromID := 3, toID := 2, term := 2
  entry := { term := 2, kind := .noop }, hasEntry := true }

/-- A replacement that is stored, and valid. -/
theorem stored_entry_is_valid_replacingAppend : ∃ s : Node Disk,
    Runs.run (Proc.next 2) (.up newFollower) [.op (.step electionAppend)] = some (.up s) ∧
    (StoreCall.append 1 replacingAppend.entry, true) ∈ s.callsIn (onAppend replacingAppend) ∧
    s.StoresValid replacingAppend := by
  obtain ⟨_, hrun, s, rfl, hstored, hvalid⟩ := Runs.run_check (Proc.next 2) (.up newFollower)
    [.op (.step electionAppend)] (fun p => ∃ s, p = .up s ∧
      (StoreCall.append 1 replacingAppend.entry, true) ∈ s.callsIn (onAppend replacingAppend) ∧
      (s.cutBack replacingAppend).validNewEntry replacingAppend.entry = true) (by decide +kernel)
  exact ⟨s, hrun, hstored, (stored_entry_is_valid s replacingAppend).mpr fun _ => hvalid⟩

/-- The entry is stored, although it is not valid where it is put, and the node does not come
back from a restart. -/
theorem malformed_entry_is_stored : ∃ s s' : Node Disk,
    newNodeWithStore 2 [1, 3] 2 {} = .ok newFollower ∧
    Runs.run (Proc.next 2) (.up newFollower) [.op (.step electionAppend)] = some (.up s) ∧
    (StoreCall.append 1 malformedAppend.entry, true) ∈ s.callsIn (onAppend malformedAppend) ∧
    (s.cutBack malformedAppend).validNewEntry malformedAppend.entry = false ∧
    Runs.run (Proc.next 2) (.up s) [.op (.step malformedAppend), .restart [1, 3] 2] = some (.up s') ∧
    s'.faulted = true := by
  obtain ⟨_, hrun, s, rfl, hstored, hvalid⟩ := Runs.run_check (Proc.next 2) (.up newFollower)
    [.op (.step electionAppend)] (fun p => ∃ s, p = .up s ∧
      (StoreCall.append 1 malformedAppend.entry, true) ∈ s.callsIn (onAppend malformedAppend) ∧
      (s.cutBack malformedAppend).validNewEntry malformedAppend.entry = false) (by decide +kernel)
  obtain ⟨_, hrun', s', rfl, hfaulted⟩ := Runs.run_check (Proc.next 2) (.up newFollower)
    [.op (.step electionAppend), .op (.step malformedAppend), .restart [1, 3] 2]
    (fun p => ∃ s, p = .up s ∧ s.faulted = true) (by decide +kernel)
  obtain ⟨p, hfirst, hrest⟩ := Runs.run_cons.mp hrun'
  have hp : p = .up s := by
    obtain ⟨_, hfirst', hnil⟩ := Runs.run_cons.mp hrun
    cases hnil
    rw [hfirst] at hfirst'
    cases hfirst'
    rfl
  rw [hp] at hrest
  exact ⟨s, s', rfl, hrun, hstored, hvalid, hrest, hfaulted⟩

end Promtact.Raft
