import Promtact.Raft.Operations

/-!
# Starting and restarting

A new node holds nothing, and so does the empty history. A restarted node is
rebuilt from its store: the store is settled, the memory is what the store holds,
and the voters are folded again from the configuration entries. With changing
voters the fold may refuse a log with two uncommitted changes, and the node then
stays stopped; with fixed voters it never does.
-/

namespace Promtact.Raft

open QuorumLog GhostState
open Node (indexes)

variable {σ : Type} [LawfulStore σ] {K : Setting σ} {n : Nat}
variable {h h' : History Nat Entry} {s s' : Node σ} {M : Mode} {i j : Nat} {g g' : Hist K}

/-! ## The configured nodes -/

/-- A list of peers that adds up without a panic: new to what was seen before it, without
repetition, and made of IDs of nodes. -/
theorem peers_of_seen {peers : List Nat} {seen voters : Word}
    (hf : peers.foldlM (fun seen peer => do
      let bit ← nodeBit peer
      if seen &&& bit ≠ 0 then throw Panic.duplicateNodeID
      return seen ||| bit) seen = .ok voters) :
    (∀ id, Member seen id → Member voters id ∧ ∀ p ∈ peers, p ≠ id) ∧ peers.Nodup ∧
      ∀ p ∈ peers, 0 < p ∧ p ≤ 64 := by
  induction peers generalizing seen with
  | nil =>
    cases hf
    exact ⟨fun _ hid => ⟨hid, by simp⟩, List.nodup_nil, by simp⟩
  | cons p peers ih =>
    rw [List.foldlM_cons] at hf
    obtain ⟨next, hnext, hf⟩ := bind_eq_ok.mp hf
    obtain ⟨bit, hbit, hnext⟩ := bind_eq_ok.mp hnext
    obtain ⟨h0, h64, rfl⟩ := range_of_nodeBit hbit
    by_cases hdup : seen &&& bitOf p ≠ 0
    · rw [if_pos hdup] at hnext
      cases hnext
    · rw [if_neg hdup] at hnext
      cases hnext
      obtain ⟨hseen, hnodup, hrange⟩ := ih hf
      have hown := (hseen p (member_or.mpr (Or.inr ((member_bitOf h0 h64).mpr rfl)))).2
      refine ⟨fun id hid => ?_, List.nodup_cons.mpr ⟨fun hp => hown p hp rfl, hnodup⟩,
        List.forall_mem_cons.mpr ⟨⟨h0, h64⟩, hrange⟩⟩
      obtain ⟨hv, hother⟩ := hseen id (member_or.mpr (Or.inl hid))
      refine ⟨hv, List.forall_mem_cons.mpr ⟨?_, hother⟩⟩
      rintro rfl
      exact hdup ((and_bitOf_ne_zero h0 h64).mpr hid)

theorem named_of_initialVoters {peers : List Nat}
    (hv : initialVoters n peers = .ok K.voters) : Named K n n peers := by
  obtain ⟨own, hown, hf⟩ := bind_eq_ok.mp hv
  obtain ⟨h0, h64, rfl⟩ := range_of_nodeBit hown
  obtain ⟨hseen, _, hrange⟩ := peers_of_seen hf
  obtain ⟨hmem, hother⟩ := hseen n ((member_bitOf h0 h64).mpr rfl)
  exact ⟨rfl, hmem, fun p hp => ⟨(hrange p hp).1, (hrange p hp).2, hother p hp⟩, fun _ => hv⟩

omit [LawfulStore σ] in
theorem newNodeWithStore_eq {peers : List Nat} {timeout : Nat} {store : σ} {voters : Word}
    (hv : initialVoters n peers = .ok voters) : newNodeWithStore n peers timeout store =
      .ok { id := n, peers := peers, timeout := timeout, votersOld := voters, store := store } := by
  unfold newNodeWithStore
  rw [hv]
  rfl

/-! ## A new node -/

/-- The store of a new node. -/
theorem dur_empty : Dur K History.empty n {} where
  voted := ⟨rfl, rfl⟩
  view := View.empty
  commit_eq := rfl
  base_le := Nat.le_refl _
  snapshot := Or.inl rfl
  single _ _ _ ha _ hca := absurd hca.le_length (by simp [History.empty]; omega)
  reach _ := Nat.le_refl _

theorem new_live {peers : List Nat} {timeout : Nat} {store : σ}
    (hv : initialVoters n peers = .ok K.voters) (hst : LawfulStore.durable store = {}) :
    LiveAt K n .full 0 History.empty
      { id := n, peers := peers, timeout := timeout, votersOld := K.voters, store := store } where
  running := rfl
  named := named_of_initialVoters hv
  voted := ⟨rfl, rfl⟩
  logged := {
    view := View.empty
    commit_eq := rfl
    base_le := Nat.le_refl _
    applied_le := Nat.le_refl _
    baseTerm_eq := rfl }
  configured := ⟨rfl, fun _ a ha hca => by
    have := hca.le_length
    simp [History.empty] at this
    omega⟩
  single _ _ _ _ ha _ hca := absurd hca.le_length (by simp [History.empty]; omega)
  role := trivial
  read := { leads := (nomatch ·), le := (nomatch ·), barrier := fun _ hc => absurd rfl hc }
  out := fun m hm => by cases hm
  dur := by rw [hst]; exact dur_empty
  synced := by rw [hst]; exact ⟨rfl, rfl, rfl⟩

/-! ## Folding the configuration entries -/

/-- The stored changes of voters behind the stored commit index. -/
def Durable.pendingConfigs (d : Durable) : List Entry :=
  (d.data.drop (max d.hard.commit d.base - d.base + 1)).filter Entry.isConfig

theorem Dur.single_of_pendingConfigs {d : Durable} (hd : Dur K h n d) (hone : d.pendingConfigs.length ≤ 1) :
    Single K (h.log n) (h.commit n) := by
  obtain ⟨_, e, _, hdata⟩ := hd.view
  have hdrop : d.pendingConfigs = ((h.log n).drop (h.commit n)).filter Entry.isConfig := by
    have hc := hd.commit_eq
    unfold Durable.pendingConfigs
    rw [hdata, List.drop_succ_cons, List.drop_drop, ← hc]
    congr 2
    omega
  rw [hdrop] at hone
  intro a b ha hab hca hcb
  obtain ⟨i, rfl⟩ : ∃ i, a = h.commit n + i + 1 := ⟨a - h.commit n - 1, by omega⟩
  obtain ⟨j, rfl⟩ : ∃ j, b = h.commit n + j + 1 := ⟨b - h.commit n - 1, by omega⟩
  obtain ⟨e₁, he₁, hc₁⟩ := hca
  obtain ⟨e₂, he₂, hc₂⟩ := hcb
  rw [← List.getElem?_drop] at he₁ he₂
  -- one of them on each side of index `j`
  rw [← List.take_append_drop j ((h.log n).drop (h.commit n)), List.filter_append,
    List.length_append] at hone
  have h₁ := List.length_pos_of_mem (List.mem_filter.mpr
    ⟨List.mem_of_getElem? ((List.getElem?_take_of_lt (show i < j by omega)).trans he₁),
      isConfig_iff.mpr hc₁⟩)
  have h₂ := List.length_pos_of_mem (List.mem_filter.mpr
    ⟨List.mem_of_getElem? (i := 0) ((List.getElem?_drop).trans he₂), isConfig_iff.mpr hc₂⟩)
  omega

/-- The fold has seen the first `k` entries. -/
structure Folds (K : Setting σ) (x : List Entry) (commit k : Nat) (f : Folded) : Prop where
  voters : configAfter K.voters (x.take (min k commit)) = (f.old, f.new)
  seen : ∀ a, commit < a → a ≤ k → K.P.ConfAt x a → f.pending ≠ 0 ∧ a ≤ f.pending
  conf : f.pending ≠ 0 → ∃ a, commit < a ∧ a ≤ k ∧ K.P.ConfAt x a

section Folding

variable {x : List Entry} {commit k : Nat} {f f' : Folded} {e : Entry}

theorem Folds.plain (hf : Folds K x commit k f) (he : x[k]? = some e) (hno : ¬ IsConfig e) :
    Folds K x commit (k + 1) f := by
  refine ⟨?_, fun a ha hak hca => ?_, fun hp => ?_⟩
  · rw [← hf.voters]
    rcases Nat.lt_or_ge k commit with hlt | hge
    · rw [Nat.min_eq_left hlt, Nat.min_eq_left (Nat.le_of_lt hlt), configAfter_take_succ _ he,
        configStep_of_not_config hno]
    · rw [Nat.min_eq_right hge, Nat.min_eq_right (by omega)]
  · rcases Nat.lt_or_ge k a with hlt | hle
    · obtain rfl : a = k + 1 := by omega
      obtain ⟨e', he', hce⟩ := hca
      rw [he] at he'
      cases he'
      exact absurd hce hno
    · exact hf.seen a ha hle hca
  · obtain ⟨a, ha, hak, hca⟩ := hf.conf hp
    exact ⟨a, ha, Nat.le_succ_of_le hak, hca⟩

/-- A committed change of voters. -/
theorem folds_committed (hpend : f.pending = 0) (he : x[k]? = some e) (hk : k + 1 ≤ commit)
    {old new : Word} (hstep : ∀ c, configStep c e = (old, new)) :
    Folds K x commit (k + 1) { f with old := old, new := new } := by
  refine ⟨?_, fun a ha hak => by omega, fun hp => absurd hpend hp⟩
  rw [Nat.min_eq_left hk, configAfter_take_succ _ he, hstep]

/-- The only change of voters behind the commit index. -/
theorem Folds.pending (hf : Folds K x commit k f) (he : x[k]? = some e) (hce : IsConfig e)
    (hk : ¬ k + 1 ≤ commit) : Folds K x commit (k + 1) { f with pending := k + 1 } := by
  refine ⟨?_, fun a _ ha _ => ⟨Nat.succ_ne_zero k, ha⟩, fun _ => ?_⟩
  · rw [← hf.voters, Nat.min_eq_right (by omega : commit ≤ k), Nat.min_eq_right (by omega)]
  · exact ⟨k + 1, by omega, Nat.le_refl _, e, he, hce⟩

theorem Folds.step (hf : Folds K x commit k f) (he : x[k]? = some e)
    (hstep : foldEntry commit (k + 1) f e = some f') : Folds K x commit (k + 1) f' := by
  unfold foldEntry at hstep
  split at hstep
  · split at hstep
    · cases hstep
    · cases hstep
      exact hf.plain he (by simp [IsConfig, *])
  · split at hstep
    · cases hstep
    · cases hstep
      exact hf.plain he (by simp [IsConfig, *])
  · rename_i hkind
    split at hstep
    · cases hstep
    · rename_i hfit
      simp only [Bool.or_eq_true, decide_eq_true_eq, not_or, not_not, ne_eq] at hfit
      split at hstep
      · cases hstep
        exact folds_committed hfit.1.1.1.1 he ‹_› fun c => by simp [configStep, hkind]
      · cases hstep
        exact hf.pending he (Or.inl hkind) ‹_›
  · rename_i hkind
    split at hstep
    · cases hstep
    · rename_i hfit
      simp only [Bool.or_eq_true, decide_eq_true_eq, not_or, not_not, ne_eq] at hfit
      split at hstep
      · cases hstep
        exact folds_committed hfit.1.1.1 he ‹_› fun c => by simp [configStep, hkind]
      · cases hstep
        exact hf.pending he (Or.inr hkind) ‹_›
  · cases hstep

/-- Only a change of voters is ever refused. -/
theorem foldEntry_none {c : Word × Word} (hfit : Fits c e)
    (hstep : foldEntry commit (k + 1) f e = none) : IsConfig e := by
  unfold Fits at hfit
  unfold foldEntry at hstep
  cases hkind : e.kind with
  | normal => simp [hkind] at hfit hstep; simp [hfit] at hstep
  | noop => simp [hkind] at hfit hstep; simp [hfit] at hstep
  | jointConfig => exact Or.inl hkind
  | finalConfig => exact Or.inr hkind
  | other c => simp [hkind] at hfit

/-- The fold knows the voters that a change behind it starts from. -/
theorem Folds.voters_eq (hf : Folds K x commit k f) (hp : f.pending = 0) (hk : k ≤ x.length) :
    configAfter K.voters (x.take k) = (f.old, f.new) := by
  rw [← hf.voters]
  rcases Nat.le_total k commit with hle | hle
  · rw [Nat.min_eq_left hle]
  · rw [Nat.min_eq_right hle, ← configAfter_take (x := x.take k) (q := commit), take_take_of_le hle]
    intro a ha hca
    have hak : a ≤ k := by
      have := hca.le_length
      simp only [List.length_take] at this
      omega
    exact (hf.seen a ha hak ((Protocol.confAt_take hak).mp hca)).1 hp

/-- A log with one change behind the commit index is not refused. -/
theorem Folds.accepts (hf : Folds K x commit k f) (hwf : WellFormed K.voters x)
    (he : x[k]? = some e) (hone : Single K x commit) : foldEntry commit (k + 1) f e ≠ none := by
  intro hstep
  have hfit := hwf k e he
  have hce := foldEntry_none hfit hstep
  have hpend : f.pending = 0 := by
    by_contra hp
    obtain ⟨a, ha, hak, hca⟩ := hf.conf hp
    exact hone a (k + 1) ha (by omega) hca ⟨e, he, hce⟩
  rw [hf.voters_eq hpend (Nat.le_of_lt (List.getElem?_eq_some_iff.mp he).1)] at hfit
  unfold foldEntry at hstep
  rcases hce with hkind | hkind
  · obtain ⟨hnew, hold, h0, h1⟩ := hfit.joint hkind
    simp only [hkind] at hstep
    rw [if_neg (by simp_all)] at hstep
    split at hstep <;> cases hstep
  · obtain ⟨hnew, hold, h0⟩ := hfit.final hkind
    simp only [hkind] at hstep
    rw [if_neg (by simp_all)] at hstep
    split at hstep <;> cases hstep

end Folding

/-- The voters that an entry names. -/
theorem Setting.Allows.within {c : Word × Word} {x : List Entry} {e : Entry} (hallow : K.Allows x e)
    (hfit : Fits c e) :
    K.Within (e.oldVoters ||| e.newVoters) := by
  by_cases hce : IsConfig e
  · exact (hallow.1 hce).2
  · have hnone : e.oldVoters = 0 ∧ e.newVoters = 0 := by
      unfold Fits at hfit
      cases hkind : e.kind with
      | normal => rw [hkind] at hfit; exact ⟨hfit.1, hfit.2.1⟩
      | noop => rw [hkind] at hfit; exact ⟨hfit.2.1, hfit.2.2.1⟩
      | jointConfig => exact absurd (Or.inl hkind) hce
      | finalConfig => exact absurd (Or.inr hkind) hce
      | other c => rw [hkind] at hfit; exact hfit.elim
    rw [hnone.1, hnone.2]
    exact fun _ id hid => absurd rfl (member_ne_zero hid)

/-- The fold over the log above the base. -/
theorem wp_restoreLoop {count k : Nat} {f : Folded} (hl : LiveAt K n M j g.1 s)
    (hk : s.baseIndex ≤ k) (hcount : k + count = (g.1.log n).length)
    (hf : Folds K (g.1.log n) s.commit k f)
    (hone : K.reconf → K.orderly → Single K (g.1.log n) s.commit) :
    NWp K n (restoreLoop (List.range' (k + 1) count) f) (fun out g' s' => g' = g ∧
      LiveAt K n M j g.1 s' ∧ s'.commit = s.commit ∧
      match out with
      | some f' => Folds K (g.1.log n) s.commit (g.1.log n).length f'
      | none => ¬ K.Traced) g s := by
  induction count generalizing k f s with
  | zero =>
    obtain rfl : k = (g.1.log n).length := by omega
    exact Wp.of_pure ⟨rfl, hl, rfl, hf⟩
  | succ count ih =>
    have hlt : k < (g.1.log n).length := by omega
    obtain ⟨e, he⟩ : ∃ e, (g.1.log n)[k]? = some e := ⟨_, List.getElem?_eq_getElem hlt⟩
    have hsound := g.2.valid.log_sound n
    rw [List.range'_succ]
    have hat := hl.logged.view.entryAt (i := k + 1) (by omega) he
    refine Wp.bind (wp_ask (hl.down g.2) (fun _ => ⟨_, hat⟩) fun entry hentry => ?_)
    rw [hat] at hentry
    cases hentry
    refine Wp.bind (Wp.of_get ?_)
    cases hstep : foldEntry s.commit (k + 1) f e with
    | none =>
      refine Wp.of_pure ⟨rfl, hl, rfl, fun htraced => ?_⟩
      by_cases hr : K.reconf
      · exact hf.accepts (g.2.log_wf hsound) he (hone hr (htraced hr)) hstep
      · exact g.2.log_fixed hr hsound e (List.mem_of_getElem? he)
          (foldEntry_none (g.2.log_wf hsound k e he) hstep)
    | some f' =>
      refine Wp.bind (Wp.of_modify ?_)
      obtain ⟨_, hallow⟩ := (g.2.log_allowed hsound).mem (List.mem_of_getElem? he)
      have hmask := hallow.within (g.2.log_wf hsound k e he)
      have hl' := hl.ensurePeers hmask
      have hcommit := ensurePeers_commit (e.oldVoters ||| e.newVoters) s
      have hbase := ensurePeers_frame Node.baseIndex (fun _ _ _ _ => rfl)
        (e.oldVoters ||| e.newVoters) s
      have hloop := ih hl' (k := k + 1) (f := f') (by rw [hbase]; omega) (by omega)
        (by rw [hcommit]; exact hf.step he hstep) (by rwa [hcommit])
      rw [hcommit] at hloop
      exact hloop

/-- A recovery ends with a good node, and the history stays as it is. -/
def Rests (K : Setting σ) (n : Nat) (g : Hist K) (_ : Unit) (g' : Hist K) (s : Node σ) : Prop :=
  g' = g ∧ Good K n g.1 s ∧ (K.Traced → s.faulted = false)

/-- The memory of a node is what its store holds, with the voters of its base. -/
theorem wp_restore (hl : LiveAt K n ⟨True, False, False⟩ s.baseIndex g.1 s)
    (hone : K.reconf → K.orderly → Single K (g.1.log n) s.commit) :
    NWp K n restore (Rests K n g) g s := by
  have hcle : s.commit ≤ (g.1.log n).length := by
    rw [← hl.logged.commit_eq]; exact g.2.valid.commit_le n
  have hview := hl.logged.view
  have hbase := hl.base_le_commit
  refine Wp.bind (Wp.of_get ?_)
  rw [if_neg (by rw [hview.lastIndex]; omega)]
  refine Wp.bind (Wp.bind (Wp.of_get ?_))
  unfold indexes
  rw [hview.lastIndex]
  have hf : Folds K (g.1.log n) s.commit s.baseIndex ⟨s.votersOld, s.votersNew, 0⟩ := by
    refine ⟨?_, fun a ha ha' => by omega, fun hp => absurd rfl hp⟩
    rw [Nat.min_eq_left hbase]
    exact hl.configured.1
  refine Wp.bind ((wp_restoreLoop hl (Nat.le_refl _) (by have := hview.1; omega) hf hone).mono ?_)
  rintro out g' s' ⟨rfl, hl', hcommit, hres⟩
  cases out with
  | none =>
    replace hres : ¬ K.Traced := hres
    have hd := hl'.down g'.2
    refine Wp.of_pure (Wp.of_modify ⟨rfl, Or.inr ?_, fun ht => absurd ht hres⟩)
    exact {
      own := hd.own
      past := hd.past
      commit_le := hd.commit_le
      running := fun hr => absurd (K.reliable_orderly hr) hres
      dur := hd.dur
      stopped := rfl
      state_eq := rfl
      silent := rfl
      unreliable := fun hr => hres (K.reliable_orderly hr)
      settled := fun ht => absurd ht hres }
  | some f =>
    replace hres : Folds K (g'.1.log n) s.commit (g'.1.log n).length f := hres
    refine Wp.bind (Wp.of_modify (Wp.of_pure (Wp.of_pure ⟨rfl, Live.good ?_, fun _ => hl'.running⟩)))
    obtain ⟨hconf, hpend, _⟩ := hres
    rw [Nat.min_eq_right hcle, ← hcommit] at hconf
    rw [← hcommit] at hpend
    exact { hl' with
      configured := ⟨hconf, fun _ a ha hca => hpend a ha hca.le_length hca⟩
      single := fun ht _ => by
        rw [hl'.logged.commit_eq, hcommit]
        exact hone (K.tidy_orderly ht).1 (K.tidy_orderly ht).2
      role := hl'.role }

/-! ## Restarting -/

/-- A store that was opened holds its log from its snapshot on. -/
theorem Dur.settle {d : Durable} (hs : Sane K h) (hd : Dur K h n d) :
    ∃ h', Sane K h' ∧ History.Grows n h h' ∧ Dur K h' n d.settle ∧
      d.settle.base = d.settle.snapshot.lastIndex ∧
      (d.base = d.snapshot.lastIndex → h' = h) := by
  unfold Durable.settle
  split
  · rename_i hgt
    rcases hd.snapshot with hempty | ⟨y, hne, hy, hdesc, hown⟩
    · rw [hempty] at hgt
      simp at hgt
    · obtain ⟨h₁, hs₁, hi⟩ := hs.install_own hy
      exact ⟨h₁, hs₁, hi.grows, hd.fence hs hy hne hdesc hown hi, rfl, fun heq => by omega⟩
  · have := hd.base_le
    exact ⟨h, hs, History.Grows.refl n h, hd, by omega, fun _ => rfl⟩

/-- The first entry of a log only carries the term of the base. -/
theorem View.rebase {voters : Word} {x data : List Entry} {base : Nat} {e : Entry}
    (hv : View voters x base data) (he : e.term = (protocol voters).termAt x base) :
    View voters x base (e :: data.tail) := by
  obtain ⟨hle, f, _, rfl⟩ := hv
  exact ⟨hle, e, he, rfl⟩

/-- What recovery copies from the store into the memory of a node. -/
structure Copied (K : Setting σ) (h : History Nat Entry) (n : Nat) (s : Node σ) : Prop where
  fresh : s.faulted = false ∧ s.state = .follower ∧ s.outbound = [] ∧ s.readReady = false ∧
    s.readContext = 0
  named : Named K n s.id s.peers
  hard : s.term = (LawfulStore.durable s.store).hard.term ∧
    s.votedFor = (LawfulStore.durable s.store).hard.votedFor ∧
    s.commit = max (LawfulStore.durable s.store).hard.commit (LawfulStore.durable s.store).base
  view : View K.voters (h.log n) s.baseIndex s.log
  base : s.baseTerm = K.P.termAt (h.log n) s.baseIndex ∧ s.applied = s.baseIndex
  voters : configAfter K.voters ((h.log n).take s.baseIndex) = (s.votersOld, s.votersNew)
  synced : Synced s.baseIndex s.snapshot (LawfulStore.durable s.store)

theorem Copied.live (hc : Copied K h n s) (hd : Dur K h n (LawfulStore.durable s.store)) :
    LiveAt K n ⟨True, False, False⟩ s.baseIndex h s where
  running := hc.fresh.1
  named := hc.named
  voted := by rw [hc.hard.1, hc.hard.2.1]; exact hd.voted
  logged := {
    view := hc.view
    commit_eq := hd.commit_eq.trans hc.hard.2.2.symm
    base_le := Nat.le_of_eq hc.base.2.symm
    applied_le := by rw [hc.base.2, hc.hard.2.2, hc.synced.1]; exact Nat.le_max_right _ _
    baseTerm_eq := hc.base.1 }
  configured := ⟨hc.voters, False.elim⟩
  single := fun _ => False.elim
  role := by rw [hc.fresh.2.1]; trivial
  read := by
    rw [hc.fresh.2.2.2.1, hc.fresh.2.2.2.2]
    exact { leads := (nomatch ·), le := (nomatch ·), barrier := fun _ h0 => absurd rfl h0 }
  out := by
    rw [hc.fresh.2.2.1]
    intro m hm
    cases hm
  dur := hd
  synced := hc.synced

theorem Copied.restore (hs : Sane K h) (hc : Copied K h n s)
    (hd : Dur K h n (LawfulStore.durable s.store))
    (hone : K.reconf → K.orderly → Single K (h.log n) (h.commit n)) :
    NWp K n restore (Rests K n ⟨h, hs⟩) ⟨h, hs⟩ s := by
  have hl := hc.live hd
  refine wp_restore hl ?_
  rw [← hl.logged.commit_eq]
  exact hone

omit [LawfulStore σ] in
theorem built_ok [StableStore σ] {prog : NodeM σ Unit} (hb : built prog s = .ok s') :
    prog s = .ok ⟨⟩ s' := by
  unfold built at hb
  split at hb
  · cases hb
    assumption
  · cases hb

/-- The programs that rebuild a node, which has sent nothing yet. -/
def Recovers (prog : NodeM σ Unit) (s₀ : Node σ) : Prop :=
  (prog = restore ∨ ∃ hard snapshot suffix, prog = restoreSnapshot hard snapshot suffix) ∧
    s₀.outbound = []

/-- Recovery without a snapshot. -/
theorem newRecoveredNode_wp {peers : List Nat} (timeout : Nat) {store : σ}
    (hs : Sane K h) (hv : initialVoters n peers = .ok K.voters)
    (hd : Dur K h n (LawfulStore.durable store))
    (hbase : (LawfulStore.durable store).base = (LawfulStore.durable store).snapshot.lastIndex)
    (hzero : (LawfulStore.durable store).snapshot.lastIndex = 0)
    (hone : K.reconf → K.orderly → Single K (h.log n) (h.commit n)) :
    NWp K n restore (Rests K n ⟨h, hs⟩) ⟨h, hs⟩ {
      id := n, peers := peers, timeout := timeout, votersOld := K.voters, store := store
      term := (LawfulStore.durable store).hard.term
      votedFor := (LawfulStore.durable store).hard.votedFor
      commit := (LawfulStore.durable store).hard.commit
      log := {} :: (LawfulStore.durable store).data.tail } := by
  have hempty : (LawfulStore.durable store).snapshot = {} := by
    rcases hd.snapshot with hempty | ⟨y, hne, _, hdesc, _⟩
    · exact hempty
    · rw [hdesc.1] at hzero
      exact absurd (List.length_eq_zero_iff.mp hzero) hne
  have hview := hd.view
  rw [hbase, hzero] at hview
  refine Copied.restore hs ?_ hd hone
  exact {
    fresh := ⟨rfl, rfl, rfl, rfl, rfl⟩
    named := named_of_initialVoters hv
    hard := ⟨rfl, rfl, by rw [hbase, hzero]; exact (Nat.max_zero _).symm⟩
    view := hview.rebase rfl
    base := ⟨rfl, rfl⟩
    voters := rfl
    synced := ⟨(hbase.trans hzero).symm, hempty.symm, hbase⟩ }

/-- Recovery from a snapshot. -/
theorem newRecoveredNodeWithSnapshot_wp {peers : List Nat} (timeout : Nat) {store : σ}
    (hs : Sane K h) (hv : initialVoters n peers = .ok K.voters)
    (hd : Dur K h n (LawfulStore.durable store))
    (hbase : (LawfulStore.durable store).base = (LawfulStore.durable store).snapshot.lastIndex)
    (hpos : (LawfulStore.durable store).snapshot.lastIndex ≠ 0)
    (hone : K.reconf → K.orderly → Single K (h.log n) (h.commit n)) :
    NWp K n (restoreSnapshot (LawfulStore.durable store).hard
      (LawfulStore.durable store).snapshot (LawfulStore.durable store).data.tail)
      (Rests K n ⟨h, hs⟩) ⟨h, hs⟩ {
        id := n, peers := peers, timeout := timeout, votersOld := K.voters, store := store } := by
  obtain ⟨y, hne, hy, ⟨hlast, hterm, hconf, _⟩, _⟩ : OwnFact K h n
      (LawfulStore.durable store).snapshot := by
    rcases hd.snapshot with hempty | hfact
    · rw [hempty] at hpos
      exact absurd rfl hpos
    · exact hfact
  have hcommit := hd.commit_eq
  have hpre : y <+: h.log n := hs.committed_pre hy (by rw [hcommit, hbase, hlast]; omega)
  have htake : (h.log n).take (LawfulStore.durable store).snapshot.lastIndex = y := by
    rw [hlast, take_eq_of_pre hpre (Nat.le_refl _), List.take_length]
  have htermAt : (LawfulStore.durable store).snapshot.lastTerm =
      K.P.termAt (h.log n) (LawfulStore.durable store).snapshot.lastIndex := by
    rw [hterm, hlast, Protocol.termAt_of_pre hpre (Nat.le_refl _)]
    rfl
  have hnamed := named_of_initialVoters hv
  have hold : (LawfulStore.durable store).snapshot.oldVoters ≠ 0 := by
    have := configAfter_old_ne_zero (member_ne_zero hnamed.voter)
      (hs.log_wf (hs.valid.committed_sound hy))
    rwa [hconf] at this
  have hview := hd.view
  rw [hbase] at hview
  refine Wp.bind (Wp.of_modify ?_)
  rw [if_neg hold]
  refine Wp.bind (Wp.of_modify (Wp.bind (Wp.of_modify ?_)))
  obtain ⟨s₀, hs₀⟩ : ∃ s₀ : Node σ, s₀ = {
      id := n, peers := peers, timeout := timeout, store := store
      term := (LawfulStore.durable store).hard.term
      votedFor := (LawfulStore.durable store).hard.votedFor
      baseIndex := (LawfulStore.durable store).snapshot.lastIndex
      baseTerm := (LawfulStore.durable store).snapshot.lastTerm
      snapshot := (LawfulStore.durable store).snapshot
      votersOld := (LawfulStore.durable store).snapshot.oldVoters
      votersNew := (LawfulStore.durable store).snapshot.newVoters } := ⟨_, rfl⟩
  have hmask : K.Within ((LawfulStore.durable store).snapshot.oldVoters |||
      (LawfulStore.durable store).snapshot.newVoters) := by
    have := hs.config_within (hs.valid.committed_sound hy)
    rwa [hconf] at this
  have hpeers := Named.ensurePeers (K := K) (n := n) (s := s₀) (by rw [hs₀]; exact hnamed) hmask
  obtain ⟨peers', next', matchIndex', heq⟩ := ensurePeers_eq
    ((LawfulStore.durable store).snapshot.oldVoters |||
      (LawfulStore.durable store).snapshot.newVoters) s₀
  rw [← hs₀]
  rw [heq, hs₀] at hpeers ⊢
  refine Copied.restore hs ?_ hd hone
  exact {
    fresh := ⟨rfl, rfl, rfl, rfl, rfl⟩
    named := hpeers
    hard := ⟨rfl, rfl, by rw [hbase]⟩
    view := hview.rebase htermAt
    base := ⟨htermAt, rfl⟩
    voters := by rw [htake]; exact hconf
    synced := ⟨hbase.symm, rfl, hbase⟩ }

/-- Recovery is a program on a new node, with what the store holds. -/
theorem recover_wp {peers : List Nat} (timeout : Nat) {store : σ} (hs : Sane K h)
    (hv : initialVoters n peers = .ok K.voters) (hd : Dur K h n (LawfulStore.durable store))
    (hbase : (LawfulStore.durable store).base = (LawfulStore.durable store).snapshot.lastIndex)
    (hone : K.reconf → K.orderly → Single K (h.log n) (h.commit n)) :
    ∃ prog s₀, Recovers prog s₀ ∧ s₀.peers = peers ∧
      recover n peers timeout store (LawfulStore.durable store).recovery = built prog s₀ ∧
      NWp K n prog (Rests K n ⟨h, hs⟩) ⟨h, hs⟩ s₀ := by
  by_cases hzero : (LawfulStore.durable store).snapshot.lastIndex = 0
  · refine ⟨_, _, ⟨Or.inl rfl, rfl⟩, ?_, ?_, newRecoveredNode_wp timeout hs hv hd hbase hzero hone⟩
    · exact rfl
    · unfold recover
      rw [if_neg (by simpa [Durable.recovery] using hzero)]
      unfold newRecoveredNode
      rw [newNodeWithStore_eq hv]
      rfl
  · refine ⟨_, _, ⟨Or.inr ⟨_, _, _, rfl⟩, rfl⟩, ?_, ?_,
      newRecoveredNodeWithSnapshot_wp timeout hs hv hd hbase hzero hone⟩
    · exact rfl
    · unfold recover
      rw [if_pos (by simpa [Durable.recovery] using hzero)]
      unfold newRecoveredNodeWithSnapshot
      rw [newNodeWithStore_eq hv]
      rfl

/-- A restarted node is running, or its log was refused. -/
theorem recover_good {peers : List Nat} {timeout : Nat} {store : σ} {recovery : Recovery}
    (hs : Sane K h) (hd : Down K n h s) (hv : initialVoters n peers = .ok K.voters)
    (hone : K.reconf → K.orderly → ∀ h', Dur K h' n (LawfulStore.durable s.store).settle →
      ((LawfulStore.durable s.store).base = (LawfulStore.durable s.store).snapshot.lastIndex →
        h' = h) → Single K (h'.log n) (h'.commit n))
    (hopen : OpenStore.reopen s.store = some (store, recovery))
    (hr : recover n peers timeout store recovery = .ok s') :
    ∃ h', Sane K h' ∧ History.Grows n h h' ∧ Good K n h' s' ∧ (K.Traced → s'.faulted = false) := by
  obtain ⟨hst, hrec⟩ := LawfulStore.reopen_settles s.store store recovery hopen
  obtain ⟨h₁, hs₁, hg₁, hd₁, hbase, hsame⟩ := hd.dur.settle hs
  have hone₁ := fun hrec hord => hone hrec hord h₁ hd₁ hsame
  rw [← hst] at hd₁ hbase
  subst hrec
  obtain ⟨prog, s₀, _, _, heq, hw⟩ := recover_wp timeout hs₁ hv hd₁ hbase hone₁
  rw [heq] at hr
  obtain ⟨_, _, rfl, hgood, hrun⟩ := hw.elim_ok (built_ok hr)
  exact ⟨h₁, hs₁, hg₁, hgood, hrun⟩

/-- A store whose snapshot is where its log begins is reopened without a change. -/
theorem recover_good_settled {peers : List Nat} {timeout : Nat} {store : σ} {recovery : Recovery}
    (hs : Sane K h) (hd : Down K n h s) (hv : initialVoters n peers = .ok K.voters)
    (hbase : (LawfulStore.durable s.store).base = (LawfulStore.durable s.store).snapshot.lastIndex)
    (hone : K.reconf → K.orderly → Single K (h.log n) (h.commit n))
    (hopen : OpenStore.reopen s.store = some (store, recovery))
    (hr : recover n peers timeout store recovery = .ok s') :
    Good K n h s' ∧ (K.Traced → s'.faulted = false) := by
  obtain ⟨hst, hrec⟩ := LawfulStore.reopen_settles s.store store recovery hopen
  have hsettle : (LawfulStore.durable s.store).settle = LawfulStore.durable s.store := by
    unfold Durable.settle
    rw [if_neg (by omega)]
  rw [hsettle] at hst
  have hdur := hd.dur
  rw [← hst] at hdur hbase
  subst hrec
  obtain ⟨prog, s₀, _, _, heq, hw⟩ := recover_wp timeout hs hv hdur hbase hone
  rw [heq] at hr
  obtain ⟨_, _, rfl, hgood, hrun⟩ := hw.elim_ok (built_ok hr)
  exact ⟨hgood, hrun⟩

end Promtact.Raft
