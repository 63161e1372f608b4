import Promtact.Raft.Safety

/-!
# Read barriers

A read barrier that a leader starts is confirmed by acknowledgements of its term
that were sent after it started. The argument needs the history at the moment of
the start, which a setting remembers by the barrier's context (`Setting.started`);
a run remembers one more whenever a barrier starts (`Sim.remember`). Contexts are
never used twice, so that an acknowledgement cannot be one of an older barrier.
-/

namespace Promtact.Raft

open QuorumLog

variable {σ : Type} [LawfulStore σ] {K : Setting σ} {n : Nat}
variable {h h' : History Nat Entry} {s : Node σ} {c c' : Cluster σ} {voters : Word}

/-! ## Remembering a moment -/

/-- The moments at which barriers were started. -/
abbrev Started := Nat → Word → Option (History Nat Entry)

def Setting.remember (K : Setting σ) (started : Started) : Setting σ :=
  { K with started := started }

section Remember

variable {started : Started}
  (hext : ∀ a x h₀, K.started a x = some h₀ → started a x = some h₀)
include hext

theorem AppendInv.remember {m : Message} {r : Reign Nat Entry} (ha : AppendInv K h m r) :
    AppendInv (K.remember started) h m r :=
  { ha with
    context := fun hf hc => by
      obtain ⟨h₀, hst, ht⟩ := ha.context hf hc
      exact ⟨h₀, hext _ _ _ hst, ht⟩ }

theorem MsgInv.remember {m : Message} (hm : MsgInv K h m) : MsgInv (K.remember started) h m := by
  refine ⟨hm.voter, hm.other, ?_, hm.state⟩
  have hc := hm.claim
  unfold Claim at hc ⊢
  cases hk : m.type with
  | append =>
    rw [hk] at hc
    obtain ⟨r, hr⟩ := hc
    exact ⟨r, hr.remember hext⟩
  | appendResponse =>
    rw [hk] at hc
    refine fun hr => ⟨(hc hr).1, fun hf hx => ?_⟩
    obtain ⟨h₀, hst, ht⟩ := (hc hr).2 hf hx
    exact ⟨h₀, hext _ _ _ hst, ht⟩
  | _ => rw [hk] at hc; exact hc

theorem ReadInv.remember {state : State} {context mask : Word} {index : Nat} {ready : Bool}
    (hr : ReadInv K h n state context mask index ready) :
    ReadInv (K.remember started) h n state context mask index ready :=
  { hr with
    barrier := fun hf hc => by
      obtain ⟨h₀, hst, hrest⟩ := hr.barrier hf hc
      exact ⟨h₀, hext _ _ _ hst, hrest⟩ }

omit hext in
theorem Dur.remember {d : Durable} (hd : Dur K h n d) : Dur (K.remember started) h n d :=
  { hd with }

theorem LiveAt.remember {M : Mode} {j : Nat} (hl : LiveAt K n M j h s) :
    LiveAt (K.remember started) n M j h s :=
  { hl with
    named := { hl.named with }
    logged := { hl.logged with }
    read := hl.read.remember hext
    out := fun m hm => (hl.out m hm).remember hext
    dur := hl.dur.remember }

omit hext in
theorem Down.remember (hd : Down K n h s) : Down (K.remember started) n h s :=
  { hd with dur := hd.dur.remember }

theorem Good.remember (hg : Good K n h s) : Good (K.remember started) n h s := by
  rcases hg with hl | hd
  · exact Or.inl (LiveAt.remember hext hl)
  · exact Or.inr { hd with toDown := hd.toDown.remember }

theorem Sim.remember (hsim : Sim K c h)
    (hnew : ∀ a x h₀, started a x = some h₀ → K.started a x = some h₀ ∨ h₀ = h) :
    Sim (K.remember started) c h where
  sane := { hsim.sane with
    before := fun a x h₀ hst => by
      rcases hnew a x h₀ hst with hold | rfl
      · exact hsim.sane.before a x h₀ hold
      · exact ⟨hsim.sane.valid, hsim.sane.allowed, fun m => Nat.le_refl _⟩ }
  procs id := by
    have hp := hsim.procs id
    cases hproc : c.procs id with
    | absent => trivial
    | up s => rw [hproc] at hp; exact Good.remember hext hp
    | down s => rw [hproc] at hp; exact Down.remember hp
  net m hm := (hsim.net m hm).remember hext
  applied := hsim.applied

end Remember

/-- One more barrier has started. -/
def Started.note (started : Started) (h : History Nat Entry) : Option (Nat × Word) → Started
  | none => started
  | some (a, x) => fun b y => if b = a ∧ y = x then some h else started b y

theorem Started.note_keeps {started : Started} {o : Option (Nat × Word)}
    (hnew : ∀ a x, o = some (a, x) → started a x = none) (a : Nat) (x : Word)
    (h₀ : History Nat Entry) (hst : started a x = some h₀) : started.note h o a x = some h₀ := by
  cases o with
  | none => exact hst
  | some p =>
    refine (if_neg ?_).trans hst
    rintro ⟨rfl, rfl⟩
    rw [hnew _ _ rfl] at hst
    cases hst

theorem Started.note_adds {started : Started} {o : Option (Nat × Word)} (a : Nat) (x : Word)
    (h₀ : History Nat Entry) (hst : started.note h o a x = some h₀) :
    started a x = some h₀ ∨ h₀ = h ∧ o = some (a, x) := by
  cases o with
  | none => exact Or.inl hst
  | some p =>
    replace hst : (if a = p.1 ∧ x = p.2 then some h else started a x) = some h₀ := hst
    split at hst
    · rename_i hp
      obtain ⟨rfl, rfl⟩ := hp
      cases hst
      exact Or.inr ⟨rfl, rfl⟩
    · exact Or.inl hst

/-! ## Runs with fresh contexts -/

/-- The barrier that an event starts. -/
def Event.barrier : Event → Option (Nat × Word)
  | .op id (.startReadIndex context) => some (id, context)
  | _ => none

/-- Fixed voters, any snapshots, stores that may fail, and fresh contexts. -/
def readSetting (σ : Type) [LawfulStore σ] (voters : Word) (started : Started) : Setting σ :=
  { fixedSetting σ voters with
    fresh := True
    started := started
    fresh_fixed := fun _ => id }

theorem read_eventSafe {started : Started} {ev : Event} (hev : ev.reconfigures = false)
    (hst : ∀ a x, ev.barrier = some (a, x) → started a x = some h) :
    EventSafe (readSetting σ voters started) c h ev := by
  cases ev with
  | restart id peers timeout => exact False.elim
  | op id op =>
    cases op with
    | propose command => exact fun _ _ _ => trivial
    | proposeRequest operation clientID requestID key value => exact fun _ _ _ => trivial
    | startReadIndex context => exact fun _ => hst id context rfl
    | transferLeadership target => exact False.elim
    | step m => exact fun _ _ => ⟨False.elim, False.elim, False.elim, False.elim, fun _ _ _ _ _ _ _ => trivial⟩
    | proposeJoint ids => cases hev
    | compact index state =>
      exact fun s _ _ _ => { image := fun _ _ _ => trivial, own := fun _ _ _ => trivial
                             plain := False.elim }
    | _ => trivial

theorem Sim.step_reads {started : Started} {ev : Event}
    (hsim : Sim (readSetting σ voters started) c h) (hev : ev.reconfigures = false)
    (hnew : ∀ a x, ev.barrier = some (a, x) → started a x = none)
    (hstep : c.step voters ev = some c') :
    ∃ h', Sim (readSetting σ voters (started.note h ev.barrier)) c' h' ∧ History.Later h h' := by
  have hsim' : Sim (readSetting σ voters (started.note h ev.barrier)) c h :=
    hsim.remember (Started.note_keeps hnew) fun a x h₀ hst =>
      (Started.note_adds a x h₀ hst).imp_right And.left
  refine hsim'.step (read_eventSafe hev fun a x hb => ?_) hstep
  rw [hb]
  exact if_pos ⟨rfl, rfl⟩

/-- What fresh contexts mean for the first event and for the others. -/
theorem Started.note_fresh {started : Started} {ev : Event} {events : List Event}
    (hfresh : ((ev :: events).filterMap Event.barrier).Nodup)
    (hnew : ∀ a x, (a, x) ∈ (ev :: events).filterMap Event.barrier → started a x = none) :
    (∀ a x, ev.barrier = some (a, x) → started a x = none) ∧
      (events.filterMap Event.barrier).Nodup ∧
      ∀ a x, (a, x) ∈ events.filterMap Event.barrier →
        started.note h ev.barrier a x = none := by
  cases hb : ev.barrier with
  | none =>
    rw [List.filterMap_cons_none hb] at hfresh hnew
    exact ⟨fun _ _ hno => (nomatch hno), hfresh, hnew⟩
  | some p =>
    rw [List.filterMap_cons_some hb] at hfresh hnew
    obtain ⟨hp, hfresh⟩ := List.nodup_cons.mp hfresh
    refine ⟨fun a x hax => ?_, hfresh, fun a x hmem => ?_⟩
    · cases hax
      exact hnew a x List.mem_cons_self
    · refine (if_neg ?_).trans (hnew a x (List.mem_cons_of_mem p hmem))
      rintro ⟨rfl, rfl⟩
      exact hp hmem

/-- A run remembers the barriers that it starts. -/
theorem Sim.run_reads {started : Started} {events : List Event}
    (hsim : Sim (readSetting σ voters started) c h)
    (hev : ∀ ev ∈ events, ev.reconfigures = false)
    (hfresh : (events.filterMap Event.barrier).Nodup)
    (hnew : ∀ a x, (a, x) ∈ events.filterMap Event.barrier → started a x = none)
    (hrun : c.run voters events = some c') :
    ∃ started' h', Sim (readSetting σ voters started') c' h' ∧
      (∀ a x h₀, started a x = some h₀ → started' a x = some h₀) ∧
      ∀ a x h₀, started' a x = some h₀ → started a x = some h₀ ∨
        (a, x) ∈ events.filterMap Event.barrier := by
  induction events generalizing c h started with
  | nil =>
    cases hrun
    exact ⟨started, h, hsim, fun _ _ _ => id, fun _ _ _ => Or.inl⟩
  | cons ev events ih =>
    obtain ⟨c₁, hstep, hrun⟩ := Cluster.run_cons hrun
    obtain ⟨hnew₀, hfresh₁, hnew₁⟩ := Started.note_fresh (h := h) hfresh hnew
    obtain ⟨h₁, hsim₁, _⟩ := hsim.step_reads (hev ev List.mem_cons_self) hnew₀ hstep
    obtain ⟨started', h', hsim', hkeeps, hadds⟩ :=
      ih hsim₁ (fun e he => hev e (List.mem_cons_of_mem ev he)) hfresh₁ hnew₁ hrun
    refine ⟨started', h', hsim', fun a x h₀ hst => ?_, fun a x h₀ hst => ?_⟩
    · exact hkeeps a x h₀ (Started.note_keeps hnew₀ a x h₀ hst)
    · rw [List.filterMap_cons]
      rcases hadds a x h₀ hst with hold | hmem
      · rcases Started.note_adds a x h₀ hold with hold | ⟨_, hb⟩
        · exact Or.inl hold
        · rw [hb]
          exact Or.inr List.mem_cons_self
      · cases ev.barrier with
        | none => exact Or.inr hmem
        | some p => exact Or.inr (List.mem_cons_of_mem p hmem)

/-! ## The barrier -/

/-- What is committed anywhere is not beyond what was chosen. -/
theorem Down.commit_chosen (hd : Down K n h s) :
    s.commit = 0 ∨ ∃ t i, h.chosen t i ∧ s.commit ≤ i := by
  obtain ⟨x, _, _, _, _, hcx, hcom⟩ := hd.past
  have hlen : (x.take s.commit).length = s.commit := by
    rw [List.length_take]
    omega
  rcases hcom with hnil | ⟨t, i, r, hci, _, _, hle, _⟩
  · rw [hnil, List.length_nil] at hlen
    exact Or.inl hlen.symm
  · exact Or.inr ⟨t, i, hci, by omega⟩

/-- A confirmed read index covers what was chosen when its barrier started. -/
theorem Sim.readIndex (hsim : Sim K c h) (hfresh : K.fresh) {id : Nat} {context : Word}
    {h₀ : History Nat Entry} (hst : K.started id context = some h₀) (hctx : context ≠ 0)
    (hup : c.procs id = .up s) {i : Nat} (hread : s.readIndexOf context = some i) :
    (∀ t k, h₀.chosen t k → k ≤ i) ∧ i ≤ s.commit := by
  unfold Node.readIndexOf at hread
  split at hread
  · cases hread
  · rename_i hno
    simp only [Bool.or_eq_true, decide_eq_true_eq, not_or, not_not, ne_eq, Bool.not_eq_true',
      Bool.not_eq_false] at hno
    obtain ⟨⟨hstate, rfl⟩, hready⟩ := hno
    cases hread
    have hgood := hsim.procs id
    rw [hup] at hgood
    have hl := Good.live hgood hstate
    obtain ⟨h₁, hst₁, _, _, hchosen⟩ := hl.read.barrier hfresh hctx
    rw [hst] at hst₁
    cases hst₁
    refine ⟨hchosen hready, ?_⟩
    have := hl.read.le hready
    rwa [hl.logged.commit_eq] at this

omit [LawfulStore σ] in
/-- Context zero starts nothing. -/
theorem startReadIndex_zero [StableStore σ] (s : Node σ) : startReadIndex 0 s = .ok false s := by
  have hmay : s.mayRead 0 = .ok false := by
    unfold Node.mayRead
    rw [if_pos (by simp)]
    rfl
  unfold startReadIndex
  show EStateM.bind (ask (·.mayRead 0)) _ s = _
  simp only [EStateM.bind, ask, hmay]
  rfl

/-- A read index is at least the commit index that any node had when the barrier
started, and at most that of the node that returns it. No node starts two barriers
with one context in the run, and no change of voters is proposed. -/
theorem read_index_barrier {c₀ c₁ c₂ : Cluster σ} {before after : List Event} {id : Nat}
    {context : Word} (hinit : c₀.Initial voters)
    (hev : ∀ ev ∈ before ++ .op id (.startReadIndex context) :: after, ev.reconfigures = false)
    (hfresh : ((before ++ .op id (.startReadIndex context) :: after).filterMap
      Event.barrier).Nodup)
    (hrun₁ : c₀.run voters before = some c₁)
    (hrun₂ : c₁.run voters (.op id (.startReadIndex context) :: after) = some c₂)
    (hstart : ∃ s₁ s₁', c₁.procs id = .up s₁ ∧ startReadIndex context s₁ = .ok true s₁')
    (hup : c₂.procs id = .up s) {i : Nat} (hread : s.readIndexOf context = some i) :
    (∀ a m, (c₁.procs a).node? = some m → m.commit ≤ i) ∧ i ≤ s.commit := by
  have hctx : context ≠ 0 := by
    rintro rfl
    obtain ⟨s₁, s₁', _, hstart⟩ := hstart
    rw [startReadIndex_zero] at hstart
    cases hstart
  rw [List.filterMap_append, List.nodup_append] at hfresh
  obtain ⟨hfresh₁, hfresh₂, hdisj⟩ := hfresh
  -- up to the moment at which the barrier starts
  obtain ⟨started, h₁, hsim₁, _, hadds⟩ := (hinit.sim
    (K := readSetting σ voters fun _ _ => none) fun _ _ => rfl).run_reads
    (fun ev he => hev ev (List.mem_append_left _ he)) hfresh₁ (fun _ _ _ => rfl) hrun₁
  have hnew : ∀ a x, (a, x) ∈ (Event.op id (.startReadIndex context) :: after).filterMap
      Event.barrier → started a x = none := by
    intro a x hp
    by_contra hst
    obtain ⟨h₀, hst⟩ := Option.ne_none_iff_exists'.mp hst
    rcases hadds a x h₀ hst with hno | hmem
    · cases hno
    · exact hdisj _ hmem _ hp rfl
  -- and from there on
  obtain ⟨c', hstep, hrun₂⟩ := Cluster.run_cons hrun₂
  obtain ⟨hnew₀, hfresh₃, hnew₃⟩ := Started.note_fresh (h := h₁) hfresh₂ hnew
  obtain ⟨h', hsim', _⟩ := hsim₁.step_reads rfl hnew₀ hstep
  obtain ⟨started', h₂, hsim₂, hkeeps, _⟩ := hsim'.run_reads
    (fun ev he => hev ev (List.mem_append_right _ (List.mem_cons_of_mem _ he))) hfresh₃ hnew₃ hrun₂
  have hst : started' id context = some h₁ := hkeeps id context h₁ (if_pos ⟨rfl, rfl⟩)
  obtain ⟨hchosen, hle⟩ := hsim₂.readIndex trivial hst hctx hup hread
  refine ⟨fun a m hm => ?_, hle⟩
  rcases (ProcInv.down hsim₁.sane (hsim₁.procs a) hm).commit_chosen with h0 | ⟨t, k, hk, hmk⟩
  · omega
  · exact Nat.le_trans hmk (hchosen t k hk)

/-! Node 1 leads with a committed entry and starts a barrier, which node 2 confirms. -/

def readRun : List Event :=
  threeNodes.schedule 7 [.act 1 .tick, .deliver 0, .deliver 2, .deliver 3, .deliver 5, .deliver 6,
    .deliver 8, .deliver 9, .deliver 10, .act 1 (.startReadIndex 9), .deliver 13, .deliver 15]

theorem read_index_barrier_readRun : ∃ (c₁ c₂ : Cluster Disk) (s : Node Disk),
    threeNodes.run 7 (readRun.take 18) = some c₁ ∧ c₁.run 7 (readRun.drop 18) = some c₂ ∧
    c₂.procs 1 = .up s ∧ s.readIndexOf 9 = some 1 ∧
    (∀ a m, (c₁.procs a).node? = some m → m.commit ≤ 1) ∧ 1 ≤ s.commit := by
  obtain ⟨c₁, c₂, hc₁, hc₂, ⟨s₁, hup₁, hok⟩, s, hup, hread⟩ := threeNodes.run_check 7
    (readRun.take 18) (readRun.drop 18) (fun c₁ c₂ =>
      (∃ s, c₁.procs 1 = .up s ∧ (match startReadIndex 9 s with
        | .ok accepted _ => accepted
        | .error _ _ => false) = true) ∧
      ∃ s, c₂.procs 1 = .up s ∧ s.readIndexOf 9 = some 1) (by decide +kernel)
  have hstart : ∃ s₁ s₁', c₁.procs 1 = .up s₁ ∧ startReadIndex 9 s₁ = .ok true s₁' := by
    split at hok
    · rename_i accepted s₁' hrun
      cases hok
      exact ⟨s₁, s₁', hup₁, hrun⟩
    · cases hok
  have hdrop : readRun.drop 18 = .op 1 (.startReadIndex 9) :: readRun.drop 19 := by decide +kernel
  refine ⟨c₁, c₂, s, hc₁, hc₂, hup, hread, ?_⟩
  rw [hdrop] at hc₂
  exact read_index_barrier threeNodes_initial (by decide +kernel) (by decide +kernel) hc₁ hc₂ hstart hup
    hread

end Promtact.Raft
