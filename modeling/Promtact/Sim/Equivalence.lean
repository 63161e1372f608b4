import Promtact.Dst.Conservation
import Promtact.Sim.Simulator

/-!
# The engine and the simulator run in lockstep

Driven by one script over one random stream, the engine over the Raft cluster and the
simulator stay twins (`Twin`): the same machines, clocks, numbers and trace, and the
same messages in flight, in a heap here and in a list there. The order of the schedule
is total on what is in flight, so that the root of the heap is what the scan finds.
-/

namespace Promtact.Sim

open Promtact.Raft (Message NodeM)
open Promtact.Dst

/-! ## Lockstep -/

section Lockstep

variable {A B A' B' X : Type} {P : A → B → Prop} {Q : A' → B' → Prop}

theorem rel_bind {x : Option A} {y : Option B} {f : A → Option A'} {g : B → Option B'}
    (h : Option.Rel P x y) (hfg : ∀ a b, P a b → Option.Rel Q (f a) (g b)) :
    Option.Rel Q (x >>= f) (y >>= g) := by
  cases h with
  | some hab => exact hfg _ _ hab
  | none => exact .none

theorem rel_foldlM {f : A → X → Option A} {g : B → X → Option B}
    (hstep : ∀ a b x, P a b → Option.Rel P (f a x) (g b x)) (l : List X) {a : A} {b : B}
    (h : P a b) : Option.Rel P (l.foldlM f a) (l.foldlM g b) := by
  induction l generalizing a b with
  | nil => exact .some h
  | cons x l ih =>
    rw [List.foldlM_cons, List.foldlM_cons]
    exact rel_bind (hstep a b x h) fun _ _ => ih

/-- Both sides do the same. -/
theorem rel_same {x : Option A} {f : A → Option A'} {g : A → Option B'}
    (hfg : ∀ a, x = some a → Option.Rel Q (f a) (g a)) : Option.Rel Q (x >>= f) (x >>= g) := by
  cases hx : x with
  | none => exact .none
  | some a => exact hfg a hx

end Lockstep

/-! ## Twins -/

variable {ρ : Type}

def Scheduled.event (q : Scheduled) : Event Message :=
  ⟨q.due, q.seq, q.msg.fromID, q.msg.toID, q.msg⟩

structure Twin (c : Config) (rest : List Message) (s : Simulator ρ) (e : RaftEngine ρ) : Prop where
  sound : Sound c e rest
  now : e.now = s.now
  ids : e.cluster.ids = s.ids
  machines : e.cluster.machines = s.machines
  rng : e.rng = s.rng
  drop : e.drop = s.drop
  delay : e.delay = s.delay
  seq : e.seq = s.seq
  trace : e.trace = s.trace
  injectors : e.injectors = []
  queue : e.queue.toList.Perm (s.queue.map Scheduled.event)
  deliveries : e.books.deliveries = s.deliveries

section Steps

variable {c : Config} {rest : List Message} {s : Simulator ρ} {e : RaftEngine ρ}

/-- The machines of both change in the same way. -/
theorem Twin.with_machines {machines : Machines} (h : Twin c rest s e) :
    Twin c rest { s with machines := machines }
      { e with cluster := { e.cluster with machines := machines } } :=
  { h with sound := { h.sound with }, machines := rfl }

/-! ## The scan -/

/-- What a scan has found after `seen` messages: the least of the due ones. -/
def Found (now : Nat) (queue : List Scheduled) (seen : Nat) : Option (Nat × Scheduled) → Prop
  | none => ∀ j q, j < seen → queue[j]? = some q → now < q.due
  | some (i, ev) => queue[i]? = some ev ∧ ev.due ≤ now ∧
      ∀ j q, j < seen → queue[j]? = some q → q.due ≤ now → ev.event.key ≤ q.event.key

theorem scan_found (now : Nat) (front back : List Scheduled) (best : Option (Nat × Scheduled))
    (h : Found now (front ++ back) front.length best) :
    Found now (front ++ back) (front ++ back).length
      (Simulator.scan now back front.length best) := by
  induction back generalizing front best with
  | nil => simpa [Simulator.scan] using h
  | cons q back ih =>
    have hq : (front ++ q :: back)[front.length]? = some q := by simp
    have hnext : ∀ best, Found now (front ++ q :: back) (front.length + 1) best →
        Found now (front ++ q :: back) (front ++ q :: back).length
          (Simulator.scan now back (front.length + 1) best) := by
      intro best hbest
      have := ih (front ++ [q]) best (by simpa using hbest)
      simpa using this
    -- the messages up to `q` are those before it, and `q`
    have hsplit : ∀ j q', j < front.length + 1 → (front ++ q :: back)[j]? = some q' →
        j < front.length ∨ q' = q := by
      intro j q' hj hget
      rcases Nat.lt_or_eq_of_le (Nat.le_of_lt_succ hj) with hlt | rfl
      · exact Or.inl hlt
      · exact Or.inr (Option.some.inj (hget.symm.trans hq))
    rw [Simulator.scan.eq_def]
    simp only
    split
    · rename_i hlate
      refine hnext best ?_
      match best, h with
      | none, h =>
        intro j q' hj hget
        rcases hsplit j q' hj hget with hlt | rfl
        · exact h j q' hlt hget
        · exact hlate
      | some (i, ev), ⟨hget, hdue, hleast⟩ =>
        refine ⟨hget, hdue, fun j q' hj hget' hdue' => ?_⟩
        rcases hsplit j q' hj hget' with hlt | rfl
        · exact hleast j q' hlt hget' hdue'
        · omega
    · rename_i hready
      match best, h with
      | none, h =>
        refine hnext _ ⟨hq, by omega, fun j q' hj hget hdue => ?_⟩
        rcases hsplit j q' hj hget with hlt | rfl
        · have := h j q' hlt hget
          omega
        · exact le_refl _
      | some (i, ev), ⟨hget, hdue, hleast⟩ =>
        simp only
        split
        · rename_i hless
          have hlt : q.event.key < ev.event.key :=
            (earlier_iff q.event ev.event).mp hless
          refine hnext _ ⟨hq, by omega, fun j q' hj hget' hdue' => ?_⟩
          rcases hsplit j q' hj hget' with hlt' | rfl
          · exact le_of_lt (lt_of_lt_of_le hlt (hleast j q' hlt' hget' hdue'))
          · exact le_refl _
        · rename_i hnot
          have hle : ev.event.key ≤ q.event.key :=
            not_lt.mp fun hlt => hnot ((earlier_iff q.event ev.event).mpr hlt)
          refine hnext _ ⟨hget, hdue, fun j q' hj hget' hdue' => ?_⟩
          rcases hsplit j q' hj hget' with hlt' | rfl
          · exact hleast j q' hlt' hget' hdue'
          · exact hle

theorem nextReady_found : Found s.now s.queue s.queue.length s.nextReady :=
  scan_found s.now [] s.queue none fun _ _ hj => absurd hj (Nat.not_lt_zero _)

/-- When the scan finds nothing, the root of the heap is not due. -/
theorem Twin.root_due (h : Twin c [] s e) {root : Event Message} (hroot : e.queue[0]? = some root)
    (hnone : s.nextReady = none) : e.now < root.due := by
  have hfound := nextReady_found (s := s)
  rw [hnone] at hfound
  have hmem : root ∈ s.queue.map Scheduled.event := by
    rw [← h.queue.mem_iff, Array.mem_toList_iff]
    exact Array.mem_of_getElem? hroot
  obtain ⟨q, hq, rfl⟩ := List.mem_map.mp hmem
  obtain ⟨j, hj, hget⟩ := List.getElem_of_mem hq
  rw [h.now]
  exact hfound j q hj (by rw [List.getElem?_eq_getElem hj, hget])

/-- The scan finds the root of the heap. -/
theorem Twin.root_eq (h : Twin c [] s e) {i : Nat} {ev : Scheduled}
    (hready : s.nextReady = some (i, ev)) :
    e.queue[0]? = some ev.event ∧ ev.due ≤ e.now ∧ s.queue[i]? = some ev := by
  have hfound := nextReady_found (s := s)
  rw [hready] at hfound
  obtain ⟨hget, hdue, hleast⟩ := hfound
  have hev : ev.event ∈ e.queue.toList :=
    h.queue.mem_iff.mpr (List.mem_map_of_mem (List.mem_of_getElem? hget))
  have hsize : 0 < e.queue.size := by
    rw [← Array.length_toList]
    exact List.length_pos_of_mem hev
  have hroot : e.queue[0]? = some e.queue[0] := Array.getElem?_eq_getElem hsize
  -- the root is not later than what the scan found
  have hle : e.queue[0].key ≤ ev.event.key := by
    obtain ⟨k, hk, hkeq⟩ := List.getElem_of_mem hev
    refine h.sound.heap.root_le k _ _ hroot ?_
    rw [Array.getElem?_eq_getElem (Array.length_toList ▸ hk), ← hkeq, Array.getElem_toList]
  -- and what the scan found is not later than the root
  have hrootmem : e.queue[0] ∈ s.queue.map Scheduled.event := by
    rw [← h.queue.mem_iff, Array.mem_toList_iff]
    exact Array.getElem_mem hsize
  obtain ⟨q, hq, hqeq⟩ := List.mem_map.mp hrootmem
  obtain ⟨j, hj, hjeq⟩ := List.getElem_of_mem hq
  have hqdue : q.due ≤ s.now := by
    have hless : e.queue[0].due ≤ ev.due := by
      rcases Prod.Lex.toLex_le_toLex.mp hle with hlt | ⟨heq, _⟩
      · exact Nat.le_of_lt hlt
      · exact Nat.le_of_eq heq
    rw [← hqeq] at hless
    exact Nat.le_trans hless hdue
  have hge : ev.event.key ≤ e.queue[0].key := by
    rw [← hqeq]
    exact hleast j q hj (by rw [List.getElem?_eq_getElem hj, hjeq]) hqdue
  have hseq : e.queue[0].seq = ev.event.seq :=
    congrArg (fun k => (ofLex k).2) (le_antisymm hle hge)
  have hsame : e.queue[0] = ev.event :=
    List.inj_on_of_nodup_map h.sound.queue_nodup
      (Array.mem_toList_iff.mpr (Array.getElem_mem hsize)) hev hseq
  rw [hroot, hsame, h.now]
  exact ⟨rfl, hdue, hget⟩

/-! ## Collecting -/

variable [Dst.Rand ρ]

/-- Without injectors, collecting a message is two draws and a push. -/
theorem post_eq (h : e.injectors = []) (m : Message) : e.post m =
    if (drawLoss e.drop e.rng).1 then
      some { e with rng := (drawLoss e.drop e.rng).2, books := e.note m .lost }
    else (drawDelay e.delay (drawLoss e.drop e.rng).2).bind fun (d, rng) => some { e with
      rng := rng
      seq := e.seq + 1
      queue := BinaryHeap.push earlier e.queue ⟨e.now + d, e.seq + 1, m.fromID, m.toID, m⟩
      books := e.note m (.scheduled ⟨e.now + d, e.seq + 1, m.fromID, m.toID, m⟩) } := by
  have hblocked : ∀ fromID toID d, e.blockedBy fromID toID d = "" := by
    intro fromID toID d
    simp [Engine.blockedBy, h]
  simp only [Engine.post, hblocked]
  rfl

theorem Twin.post {m : Message} (h : Twin c (m :: rest) s e) :
    Option.Rel (Twin c rest) (s.post m) (e.post m) := by
  have hsound : ∀ {e'}, e.post m = some e' → Sound c e' rest := fun he => h.sound.post he
  have hloss : drawLoss s.drop s.rng = drawLoss e.drop e.rng := by rw [h.drop, h.rng]
  have hdelay : ∀ rng : ρ, drawDelay s.delay rng = drawDelay e.delay rng := by
    intro rng
    rw [h.delay]
  rw [post_eq h.injectors] at hsound ⊢
  simp only [Simulator.post, hloss, hdelay]
  generalize drawLoss e.drop e.rng = loss at hsound ⊢
  obtain ⟨lost, rng⟩ := loss
  cases lost with
  | true => exact .some { h with sound := hsound rfl, rng := rfl }
  | false =>
    simp only [Bool.false_eq_true, if_false] at hsound ⊢
    cases hdraw : drawDelay e.delay rng with
    | none => exact .none
    | some draw =>
      rw [hdraw] at hsound
      refine .some { h with
        sound := hsound rfl
        rng := rfl
        seq := congrArg (· + 1) h.seq
        queue := ?_ }
      refine BinaryHeap.push_perm.trans ?_
      rw [List.map_append, ← h.now, ← h.seq]
      exact (h.queue.cons _).trans (List.perm_append_singleton _ _).symm

theorem Twin.foldlM_post (messages : List Message) (h : Twin c messages s e) :
    Option.Rel (Twin c []) (messages.foldlM Simulator.post s) (messages.foldlM Engine.post e) := by
  induction messages generalizing s e with
  | nil => exact .some h
  | cons m messages ih =>
    rw [List.foldlM_cons, List.foldlM_cons]
    exact rel_bind h.post fun _ _ => ih

theorem Twin.collectNode {id : Nat} (h : Twin c [] s e) :
    Option.Rel (Twin c []) (s.collectNode id) (e.collectNode id) := by
  unfold Simulator.collectNode Engine.collectNode
  show Option.Rel _ _ (((e.cluster.machines.onNode id Raft.drain).bind _).bind _)
  rw [h.machines]
  cases hdrain : s.machines.onNode id Raft.drain with
  | none => exact .none
  | some drained =>
    obtain ⟨messages, machines⟩ := drained
    have hm : Twin c [] { s with machines := machines }
      { e with cluster := { e.cluster with machines := machines } } := h.with_machines
    refine Twin.foldlM_post messages { hm with sound := { h.sound with drained := ?_ } }
    show e.books.drained ++ messages = _
    rw [h.sound.drained]
    simp

theorem Twin.collect (h : Twin c [] s e) : Option.Rel (Twin c []) s.collect e.collect := by
  unfold Simulator.collect Engine.collect
  show Option.Rel _ _ (e.cluster.ids.foldlM _ e)
  rw [h.ids]
  exact rel_foldlM (fun _ _ _ h => h.collectNode) _ h

/-! ## Steps -/

variable (sha256 : List UInt8 → List UInt8)

theorem Twin.dispatch {i : Nat} {ev : Scheduled} {queue : Array (Event Message)}
    (h : Twin c [] s e) (hpop : BinaryHeap.pop earlier e.queue = some (ev.event, queue))
    (hdue : ev.due ≤ e.now) (hget : s.queue[i]? = some ev) :
    Option.Rel (Twin c [])
      (({ s with queue := s.queue.eraseIdx i } : Simulator ρ).dispatch sha256 ev)
      (({ e with queue := queue } : RaftEngine ρ).dispatch sha256 ev.event) := by
  have hqueue : queue.toList.Perm ((s.queue.eraseIdx i).map Scheduled.event) := by
    obtain ⟨hlt, rfl⟩ := List.getElem?_eq_some_iff.mp hget
    have hleft : e.queue.toList.Perm (s.queue[i].event :: queue.toList) := BinaryHeap.pop_perm hpop
    have hright := (List.getElem_cons_eraseIdx_perm hlt).map Scheduled.event
    exact (hleft.symm.trans (h.queue.trans hright.symm)).cons_inv
  unfold Simulator.dispatch Engine.dispatch
  show Option.Rel _ (s.machines.onNode ev.msg.toID (Raft.step ev.msg) >>= _)
    (((e.cluster.machines.onNode ev.msg.toID (Raft.step ev.msg)).bind _).bind _)
  rw [h.machines]
  cases s.machines.onNode ev.msg.toID (Raft.step ev.msg) with
  | none => exact .none
  | some result =>
    refine Twin.collect { h with
      sound := h.sound.deliver hpop hdue
      machines := rfl
      trace := ?_
      queue := hqueue
      deliveries := ?_ }
    · show sha256 _ = sha256 _
      rw [h.now, h.trace]
      rfl
    · show e.books.deliveries ++ _ = s.deliveries ++ _
      rw [h.deliveries, h.now]
      rfl

theorem Twin.deliverDue (rounds : Nat) (h : Twin c [] s e) :
    Option.Rel (Twin c []) (s.deliverReady sha256 rounds) (e.deliverDue sha256 rounds) := by
  induction rounds generalizing s e with
  | zero => exact .none
  | succ rounds ih =>
    rw [Simulator.deliverReady, Engine.deliverDue]
    cases hready : s.nextReady with
    | none =>
      cases hroot : e.queue[0]? with
      | none => exact .some h
      | some root =>
        simp only
        rw [if_neg (Nat.not_le.mpr (h.root_due hroot hready))]
        exact .some h
    | some found =>
      obtain ⟨i, ev⟩ := found
      obtain ⟨hroot, hdue, hget⟩ := h.root_eq hready
      obtain ⟨queue, hpop⟩ := BinaryHeap.pop_isSome earlier hroot
      simp only [hroot]
      rw [if_pos (show ev.event.due ≤ e.now from hdue), hpop]
      show Option.Rel (Twin c []) (_ >>= Simulator.deliverReady sha256 rounds)
        (_ >>= Engine.deliverDue sha256 rounds)
      exact rel_bind (h.dispatch sha256 hpop hdue hget) fun _ _ => ih

omit [Dst.Rand ρ] in
theorem Twin.tick {id : Nat} (h : Twin c [] s e) :
    Option.Rel (Twin c []) (s.tick id) (e.tick id) := by
  unfold Simulator.tick Engine.tick
  show Option.Rel _ _ (((e.cluster.machines.onNode id Raft.tick).bind _).bind _)
  rw [h.machines]
  cases s.machines.onNode id Raft.tick with
  | none => exact .none
  | some result => exact .some h.with_machines

theorem Twin.step (rounds : Nat) (h : Twin c [] s e) :
    Option.Rel (Twin c []) (s.step sha256 rounds) (e.step sha256 rounds) := by
  have hnow : Twin c [] { s with now := s.now + 1 } { e with now := e.now + 1 } :=
    { h with
      sound := { h.sound with past := fun d hd => Nat.le_succ_of_le (h.sound.past d hd) }
      now := congrArg (· + 1) h.now }
  unfold Simulator.step Engine.step
  have hticks : Option.Rel (Twin c [])
      (s.ids.foldlM Simulator.tick { s with now := s.now + 1 })
      (e.cluster.ids.foldlM Engine.tick { e with now := e.now + 1 }) := by
    rw [h.ids]
    exact rel_foldlM (fun _ _ _ h => h.tick) _ hnow
  exact rel_bind hticks fun _ _ h => rel_bind h.collect fun _ _ h => h.deliverDue sha256 rounds

/-! ## Scripts -/

/-- The same report, and twins behind it. -/
abbrev Same (c : Config) (x : Bool × Simulator ρ) (y : Bool × RaftEngine ρ) : Prop :=
  x.1 = y.1 ∧ Twin c [] x.2 y.2

theorem Twin.proposal (prog : NodeM StableStore Bool) (h : Twin c [] s e) :
    Option.Rel (Same c) (s.proposal prog) (RaftEngine.proposal prog e) := by
  unfold Simulator.proposal RaftEngine.proposal
  rw [h.machines, h.ids]
  refine rel_same fun result _ => ?_
  obtain ⟨accepted, machines⟩ := result
  have hm : Twin c [] { s with machines := machines }
    { e with cluster := { e.cluster with machines := machines } } := h.with_machines
  cases accepted with
  | true => exact rel_bind hm.collect fun _ _ h => .some ⟨rfl, h⟩
  | false => exact .some ⟨rfl, hm⟩

omit [Dst.Rand ρ] in
theorem Twin.crashRestart (id : Nat) (h : Twin c [] s e) :
    Option.Rel (Same c) (s.crashRestart id) (RaftEngine.crashRestart id e) := by
  unfold Simulator.crashRestart RaftEngine.crashRestart
  rw [h.machines]
  refine rel_same fun result _ => ?_
  obtain ⟨err, machines⟩ := result
  have hm : Twin c [] { s with machines := machines }
    { e with cluster := { e.cluster with machines := machines } } := h.with_machines
  cases err with
  | some err => exact .some ⟨rfl, hm⟩
  | none =>
    refine .some ⟨rfl, { hm with sound := hm.sound.isolate id, queue := ?_ }⟩
    refine BinaryHeap.rebuild_perm.trans ?_
    rw [Array.toList_filter]
    refine (h.queue.filter _).trans ?_
    rw [List.filter_map]
    refine List.Perm.of_eq (congrArg (List.map Scheduled.event) (List.filter_congr fun q _ => ?_))
    show (!(decide (q.msg.fromID = id) || decide (q.msg.toID = id))) =
      (decide (q.msg.fromID ≠ id) && decide (q.msg.toID ≠ id))
    simp

theorem Twin.exec (call : Call) (h : Twin c [] s e) :
    Option.Rel (Same c) (s.exec sha256 call) (RaftEngine.exec sha256 e call) := by
  cases call with
  | step rounds => exact rel_bind (h.step sha256 rounds) fun _ _ h => .some ⟨rfl, h⟩
  | propose command => exact h.proposal _
  | proposeJoint voters => exact h.proposal _
  | proposeFinal => exact h.proposal _
  | compact id state =>
    simp only [Simulator.exec, RaftEngine.exec]
    rw [h.machines]
    exact rel_same fun _ _ => .some ⟨rfl, h.with_machines⟩
  | apply id =>
    simp only [Simulator.exec, RaftEngine.exec]
    rw [h.machines]
    exact rel_same fun _ _ => .some ⟨rfl, h.with_machines⟩
  | crashRestart id => exact h.crashRestart id

theorem Twin.script (calls : List Call) (h : Twin c [] s e) :
    Option.Rel (fun x y => x.1 = y.1 ∧ Twin c [] x.2 y.2)
      (Sim.script (Simulator.exec sha256) calls s)
      (Sim.script (RaftEngine.exec sha256) calls e) := by
  induction calls generalizing s e with
  | nil => exact .some ⟨rfl, h⟩
  | cons call calls ih =>
    rw [Sim.script, Sim.script]
    refine rel_bind (h.exec sha256 call) fun x y hxy => ?_
    refine rel_bind (ih hxy.2) fun x' y' hxy' => .some ⟨?_, hxy'.2⟩
    simp only [hxy.1, hxy'.1]

end Steps

theorem twin_new (count : Nat) (c : Config) (rng : ρ) :
    Option.Rel (Twin c []) (Simulator.new count c rng) (RaftEngine.new count c rng) := by
  unfold Simulator.new RaftEngine.new RaftCluster.new
  split
  · exact .none
  · cases Machines.start (List.range' 1 count) electionTimeout with
    | none => exact .none
    | some machines =>
      exact .some {
        sound := new_sound rng _
        now := rfl
        ids := rfl
        machines := rfl
        rng := rfl
        drop := rfl
        delay := rfl
        seq := rfl
        trace := rfl
        injectors := rfl
        queue := List.Perm.refl _
        deliveries := rfl }

variable [Dst.Rand ρ]

/-- One script over one random stream: both give up in the same call, or both end with
the same reports, deliveries, numbers, trace and nodes. -/
theorem engine_matches_simulator (sha256 : List UInt8 → List UInt8) (count : Nat) (c : Config)
    (rng : ρ) (calls : List Call) :
    Option.Rel (fun x y => x.1 = y.1 ∧ x.2.trace = y.2.trace ∧
        x.2.deliveries = y.2.books.deliveries ∧ x.2.now = y.2.now ∧ x.2.seq = y.2.seq ∧
        x.2.machines.nodes = y.2.cluster.machines.nodes)
      (Simulator.new count c rng >>= script (Simulator.exec sha256) calls)
      (RaftEngine.new count c rng >>= script (RaftEngine.exec sha256) calls) := by
  refine rel_bind (twin_new count c rng) fun s e h => ?_
  have hscript := h.script sha256 calls
  generalize script (Simulator.exec sha256) calls s = x at hscript ⊢
  generalize script (RaftEngine.exec sha256) calls e = y at hscript ⊢
  cases hscript with
  | none => exact .none
  | some hxy =>
    obtain ⟨hreports, ht⟩ := hxy
    exact .some ⟨hreports, ht.trace.symm, ht.deliveries.symm, ht.now.symm, ht.seq.symm,
      congrArg Machines.nodes ht.machines.symm⟩

end Promtact.Sim
