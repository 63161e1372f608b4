import Promtact.Dst.Inject
import Promtact.Dst.OpenLoop
import Promtact.Runs

/-!
# A run with faults beside the run without

Injectors are asked after the loss and the delay of a message are drawn, so a fault shifts
nothing. The comparison is for open loops: protocols in which a delivery changes nothing that
a tick or a drain looks at. There the two runs drain the same messages and draw the same
numbers, and what arrives in the run with the injectors is what arrives in the run without
them, less the denied messages, in the same order and at the same times.

The two queues do not have the same contents, and an event that is in both has not the same
sequence number in both. `Paired` relates them by a renumbering that is undefined at the
denied events and increasing elsewhere.
-/

namespace Promtact.Dst

open Function (update)
open Runs (Follows)

variable {γ M ρ κ : Type}

/-! ## What is compared -/

def Fate.isBlocked : Fate M → Bool
  | .blocked _ => true
  | _ => false

/-- The letter of the event is one that an injector denies. -/
def Books.denies (injectors : List Injector) (b : Books M) (ev : Event M) : Bool :=
  b.letters.any fun l => l.fate.event?.any (·.seq = ev.seq) && !decide (l.Allowed injectors)

/-- What an observer sees of a delivery: the time, the sender, the destination and the message. -/
def Delivery.observed (d : Delivery M) : Nat × Nat × Nat × M :=
  (d.now, d.event.fromID, d.event.toID, d.event.msg)

/-- The event under its number in the other run. -/
def renumber (num : Nat → Option Nat) (ev : Event M) : Option (Event M) :=
  (num ev.seq).map fun seq => { ev with seq := seq }

def redeliver (num : Nat → Option Nat) (d : Delivery M) : Option (Delivery M) :=
  (renumber num d.event).map fun ev => ⟨d.now, d.node, ev⟩

section Renumber

variable {num : Nat → Option Nat} {n k : Nat} {ev ev' : Event M}

theorem renumber_some (h : num ev.seq = some k) : renumber num ev = some { ev with seq := k } := by
  rw [renumber, h]
  rfl

theorem renumber_none (h : num ev.seq = none) : renumber num ev = none := by
  rw [renumber, h]
  rfl

theorem renumber_eq_some : renumber num ev = some ev' ↔
    ∃ k, num ev.seq = some k ∧ { ev with seq := k } = ev' :=
  Option.map_eq_some_iff

theorem renumber_update (k : Option Nat) (h : ev.seq < n) :
    renumber (update num n k) ev = renumber num ev := by
  rw [renumber, Function.update_of_ne (Nat.ne_of_lt h), renumber]

/-- An event that stays keeps its place in the order. -/
theorem renumber_earlier {other other' : Event M}
    (hmono : ∀ i j i' j', num i = some i' → num j = some j' → i < j → i' < j')
    (hev : renumber num ev = some ev') (hother : renumber num other = some other')
    (h : earlier ev other = true) : earlier ev' other' = true := by
  obtain ⟨i, hi, rfl⟩ := renumber_eq_some.mp hev
  obtain ⟨j, hj, rfl⟩ := renumber_eq_some.mp hother
  simp only [earlier, Bool.or_eq_true, Bool.and_eq_true, decide_eq_true_eq] at h ⊢
  rcases h with hdue | ⟨hdue, hseq⟩
  · exact .inl hdue
  · exact .inr ⟨hdue, hmono _ _ _ _ hi hj hseq⟩

end Renumber

section Letters

variable {injectors : List Injector} {m : M}

theorem allowed_of_event_none {l : Letter M} (h : l.fate.event? = none) : l.Allowed injectors := by
  intro ev hev
  rw [hev] at h
  cases h

theorem allowed_scheduled {now : Nat} {ev : Event M} :
    (⟨m, now, .scheduled ev⟩ : Letter M).Allowed injectors ↔
      ¬ Denied injectors now ev.fromID ev.toID (ev.due - now) := by
  constructor
  · exact fun h => h ev rfl
  · intro h ev' hev
    cases hev
    exact h

end Letters

section Pairing

variable [Cluster γ M] [Wire M]

/-- The engine of a run without injectors beside that of the run with them, while the
messages `rest` are drained and not yet collected. -/
structure Paired (loop : OpenLoop γ M κ) (c : Config) (injectors : List Injector)
    (num : Nat → Option Nat) (rest : List M) (e e' : Engine γ M ρ) : Prop where
  left : Sound c e rest
  right : Sound c e' rest
  now : e'.now = e.now
  rng : e'.rng = e.rng
  drop : e'.drop = e.drop
  core : loop.core e.cluster = loop.core e'.cluster
  bare : e.injectors = []
  faults : e'.injectors = injectors
  mono : ∀ i j i' j', num i = some i' → num j = some j' → i < j → i' < j'
  known : ∀ i i', num i = some i' → i ≤ e.seq ∧ i' ≤ e'.seq
  queue : e'.queue.toList.Perm (e.queue.toList.filterMap (renumber num))
  deliveries : e'.books.deliveries = e.books.deliveries.filterMap (redeliver num)
  judged : ∀ l ∈ e.books.letters, ∀ ev, l.fate = .scheduled ev →
    (num ev.seq = none ↔ ¬ l.Allowed injectors)
  blocked : e'.books.letters.countP (·.fate.isBlocked) =
    e.books.letters.countP fun l => !decide (l.Allowed injectors)

variable {loop : OpenLoop γ M κ} {c : Config} {injectors : List Injector} {num : Nat → Option Nat}
variable {rest : List M} {e e' e₁ : Engine γ M ρ} {m : M}

theorem new_paired (rng : ρ) (cluster : γ) :
    Paired loop c injectors (fun _ => none) [] (Engine.new c rng cluster)
      ((Engine.new c rng cluster : Engine γ M ρ).inject injectors) where
  left := new_sound rng cluster
  right := { (new_sound rng cluster : Sound c (Engine.new c rng cluster : Engine γ M ρ) []) with
    named := nofun }
  now := rfl
  rng := rfl
  drop := rfl
  core := rfl
  bare := rfl
  faults := rfl
  mono := nofun
  known := nofun
  queue := List.Perm.refl _
  deliveries := rfl
  judged := nofun
  blocked := rfl

/-- Nothing that was scheduled has the next number. -/
theorem Paired.queue_seq (h : Paired loop c injectors num rest e e') {ev : Event M}
    (hev : ev ∈ e.queue.toList) : ev.seq < e.seq + 1 :=
  Nat.lt_succ_of_le (h.left.seq_le (h.left.places.mem_iff.mpr (by simp [hev])))

theorem Paired.delivered_seq (h : Paired loop c injectors num rest e e') {d : Delivery M}
    (hd : d ∈ e.books.deliveries) : d.event.seq < e.seq + 1 :=
  Nat.lt_succ_of_le (h.left.seq_le (h.left.delivered_scheduled (List.mem_map_of_mem hd)))

theorem Paired.letter_seq (h : Paired loop c injectors num rest e e') {l : Letter M} {ev : Event M}
    (hl : l ∈ e.books.letters) (hev : l.fate = .scheduled ev) : ev.seq < e.seq + 1 := by
  refine Nat.lt_succ_of_le (h.left.seq_le (List.mem_filterMap.mpr ⟨l, hl, ?_⟩))
  rw [hev]
  rfl

theorem Paired.num_next (h : Paired loop c injectors num rest e e') : num (e.seq + 1) = none := by
  cases hnum : num (e.seq + 1) with
  | none => rfl
  | some k => exact absurd (h.known _ _ hnum).1 (by omega)

/-! ## One message -/

theorem Paired.lose {rng : ρ} (h : Paired loop c injectors num (m :: rest) e e') :
    Paired loop c injectors num rest { e with rng := rng, books := e.note m .lost }
      { e' with rng := rng, books := e'.note m .lost } :=
  { h with
    left := h.left.discard rfl (fun _ => rfl) nofun
    right := h.right.discard rfl (fun _ => rfl) nofun
    rng := rfl
    judged := fun l hl ev hev => by
      rcases mem_note_letters hl with hl | rfl
      · exact h.judged l hl ev hev
      · cases hev
    blocked := by
      have hallowed : (⟨m, e.now, .lost⟩ : Letter M).Allowed injectors := allowed_of_event_none rfl
      show (e'.note m .lost).letters.countP _ = (e.note m .lost).letters.countP _
      rw [note_countP, note_countP, h.blocked]
      simp [Fate.isBlocked, hallowed] }

variable {ev ev' : Event M} {rng : ρ} {injected : String → Nat} {name : String}

/-- The message enters the schedule on the left and is blocked on the right. -/
theorem Paired.deny (h : Paired loop c injectors num (m :: rest) e e') (hseq : ev.seq = e.seq + 1)
    (hdenied : Denied injectors e.now ev.fromID ev.toID (ev.due - e.now))
    (hleft : Sound c { e with
      rng := rng
      seq := e.seq + 1
      queue := BinaryHeap.push earlier e.queue ev
      books := e.note m (.scheduled ev) } rest)
    (hright : Sound c { e' with
      rng := rng
      injected := injected
      books := e'.note m (.blocked name) } rest) :
    Paired loop c injectors num rest
      { e with
        rng := rng
        seq := e.seq + 1
        queue := BinaryHeap.push earlier e.queue ev
        books := e.note m (.scheduled ev) }
      { e' with rng := rng, injected := injected, books := e'.note m (.blocked name) } := by
  have hnone : num ev.seq = none := hseq ▸ h.num_next
  have hallowed : ¬ (⟨m, e.now, .scheduled ev⟩ : Letter M).Allowed injectors :=
    fun hallowed => allowed_scheduled.mp hallowed hdenied
  exact { h with
    left := hleft
    right := hright
    rng := rfl
    known := fun i i' hi => ⟨Nat.le_succ_of_le (h.known i i' hi).1, (h.known i i' hi).2⟩
    queue := by
      have hpush : (BinaryHeap.push earlier e.queue ev).toList.Perm (ev :: e.queue.toList) :=
        BinaryHeap.push_perm
      have hfilter := hpush.filterMap (renumber num)
      rw [List.filterMap_cons_none (renumber_none hnone)] at hfilter
      exact h.queue.trans hfilter.symm
    judged := fun l hl ev' hev' => by
      rcases mem_note_letters hl with hl | rfl
      · exact h.judged l hl ev' hev'
      · cases hev'
        exact iff_of_true hnone hallowed
    blocked := by
      show (e'.note m (.blocked name)).letters.countP _ = (e.note m (.scheduled ev)).letters.countP _
      rw [note_countP, note_countP, h.blocked]
      simp [Fate.isBlocked, hallowed] }

/-- The message enters both schedules, under the next number of each. -/
theorem Paired.schedule (h : Paired loop c injectors num (m :: rest) e e')
    (hseq : ev.seq = e.seq + 1) (hevent : { ev with seq := e'.seq + 1 } = ev')
    (hallowed : ¬ Denied injectors e.now ev.fromID ev.toID (ev.due - e.now))
    (hleft : Sound c { e with
      rng := rng
      seq := e.seq + 1
      queue := BinaryHeap.push earlier e.queue ev
      books := e.note m (.scheduled ev) } rest)
    (hright : Sound c { e' with
      rng := rng
      seq := e'.seq + 1
      queue := BinaryHeap.push earlier e'.queue ev'
      books := e'.note m (.scheduled ev') } rest) :
    Paired loop c injectors (update num (e.seq + 1) (some (e'.seq + 1))) rest
      { e with
        rng := rng
        seq := e.seq + 1
        queue := BinaryHeap.push earlier e.queue ev
        books := e.note m (.scheduled ev) }
      { e' with
        rng := rng
        seq := e'.seq + 1
        queue := BinaryHeap.push earlier e'.queue ev'
        books := e'.note m (.scheduled ev') } := by
  have hnum : update num (e.seq + 1) (some (e'.seq + 1)) ev.seq = some (e'.seq + 1) := by
    rw [hseq, Function.update_self]
  have hold : ∀ i, i ≠ e.seq + 1 → update num (e.seq + 1) (some (e'.seq + 1)) i = num i :=
    fun i hi => Function.update_of_ne hi _ _
  have hlater : ∀ i i', update num (e.seq + 1) (some (e'.seq + 1)) i = some i' →
      i = e.seq + 1 ∧ i' = e'.seq + 1 ∨ num i = some i' ∧ i ≤ e.seq ∧ i' ≤ e'.seq := by
    intro i i' hi
    by_cases heq : i = e.seq + 1
    · rw [heq, Function.update_self] at hi
      exact .inl ⟨heq, (Option.some.inj hi).symm⟩
    · rw [hold i heq] at hi
      exact .inr ⟨hi, h.known i i' hi⟩
  have hletter : (⟨m, e.now, .scheduled ev⟩ : Letter M).Allowed injectors :=
    allowed_scheduled.mpr hallowed
  exact { h with
    left := hleft
    right := hright
    rng := rfl
    mono := fun i j i' j' hi hj hlt => by
      rcases hlater i i' hi with ⟨rfl, rfl⟩ | ⟨hi, _, _⟩
      · rcases hlater j j' hj with ⟨rfl, rfl⟩ | ⟨_, _, _⟩
        · omega
        · omega
      · rcases hlater j j' hj with ⟨rfl, rfl⟩ | ⟨hj, _, _⟩
        · omega
        · exact h.mono i j i' j' hi hj hlt
    known := fun i i' hi => by
      show i ≤ e.seq + 1 ∧ i' ≤ e'.seq + 1
      rcases hlater i i' hi with ⟨rfl, rfl⟩ | ⟨_, _, _⟩
      · omega
      · omega
    queue := by
      have hpush : (BinaryHeap.push earlier e.queue ev).toList.Perm (ev :: e.queue.toList) :=
        BinaryHeap.push_perm
      have hpush' : (BinaryHeap.push earlier e'.queue ev').toList.Perm (ev' :: e'.queue.toList) :=
        BinaryHeap.push_perm
      have hfilter := hpush.filterMap (renumber (update num (e.seq + 1) (some (e'.seq + 1))))
      have hqueue : e.queue.toList.filterMap
          (renumber (update num (e.seq + 1) (some (e'.seq + 1)))) =
          e.queue.toList.filterMap (renumber num) :=
        List.filterMap_congr fun q hq => renumber_update _ (h.queue_seq hq)
      rw [List.filterMap_cons_some (renumber_some hnum), hqueue, hevent] at hfilter
      exact hpush'.trans ((h.queue.cons ev').trans hfilter.symm)
    deliveries := by
      refine h.deliveries.trans (List.filterMap_congr fun d hd => ?_)
      rw [redeliver, redeliver, renumber_update _ (h.delivered_seq hd)]
    judged := fun l hl other hother => by
      rcases mem_note_letters hl with hl | rfl
      · rw [hold _ (Nat.ne_of_lt (h.letter_seq hl hother))]
        exact h.judged l hl other hother
      · cases hother
        rw [hnum]
        exact iff_of_false nofun (not_not.mpr hletter)
    blocked := by
      show (e'.note m (.scheduled ev')).letters.countP _ = (e.note m (.scheduled ev)).letters.countP _
      rw [note_countP, note_countP, h.blocked]
      simp [Fate.isBlocked, hletter] }

/-! ## Ticks and isolation -/

/-- The two engines are paired, under some renumbering. -/
def Beside (loop : OpenLoop γ M κ) (c : Config) (injectors : List Injector) (rest : List M)
    (e e' : Engine γ M ρ) : Prop :=
  ∃ num, Paired loop c injectors num rest e e'

variable {live : Prop}

theorem Beside.nodes (h : Beside loop c injectors rest e e') :
    Cluster.nodes e'.cluster = Cluster.nodes e.cluster := by
  obtain ⟨num, h⟩ := h
  exact (loop.nodes_core h.core).symm

theorem Beside.tick (h : Beside loop c injectors [] e e') (id : Nat) :
    Follows live (Beside loop c injectors []) (e.tick id) (e'.tick id) := by
  obtain ⟨num, h⟩ := h
  refine Follows.of_some fun e₁ he₁ => ?_
  obtain ⟨cluster, htick, he₁⟩ := Option.bind_eq_some_iff.mp he₁
  cases he₁
  obtain ⟨cluster', htick', hcore⟩ := loop.tick_core h.core htick
  refine ⟨{ e' with cluster := cluster' }, ?_, num, ?_⟩
  · unfold Engine.tick
    rw [htick']
    rfl
  · exact { h with left := { h.left with }, right := { h.right with }, core := hcore }

theorem Beside.isolate (node : Nat) (h : Beside loop c injectors [] e e') :
    Beside loop c injectors [] (e.isolate node).2 (e'.isolate node).2 := by
  obtain ⟨num, h⟩ := h
  have hswap : (e.queue.toList.filterMap (renumber num)).filter (fun ev => !Engine.touches node ev) =
      (e.queue.toList.filter fun ev => !Engine.touches node ev).filterMap (renumber num) := by
    rw [List.filter_filterMap, List.filterMap_filter]
    refine List.filterMap_congr fun ev _ => ?_
    cases hnum : num ev.seq with
    | none => simp [renumber_none hnum]
    | some k => simp [renumber_some hnum, Option.filter, Engine.touches]
  refine ⟨num, { h with left := h.left.isolate node, right := h.right.isolate node, queue := ?_ }⟩
  refine (isolate_perm node e').trans ((h.queue.filter _).trans ?_)
  rw [hswap]
  exact ((isolate_perm node e).filterMap _).symm

/-! ## One delivery -/

/-- The engine behind a delivery that makes no node send anything. -/
def Engine.landed (sha256 : List UInt8 → List UInt8) (e : Engine γ M ρ) (ev : Event M)
    (queue : Array (Event M)) (cluster : γ) : Engine γ M ρ :=
  { e with
    queue := queue
    cluster := cluster
    trace := (e.record sha256 ev).trace
    books := { e.books with deliveries := e.books.deliveries ++ [⟨e.now, ev.toID, ev⟩] } }

variable {sha256 : List UInt8 → List UInt8} {queue queue' : Array (Event M)} {cluster : γ} {k : Nat}

/-- A denied event is delivered on the left only. -/
theorem Paired.skip (h : Paired loop c injectors num [] e e')
    (hpop : BinaryHeap.pop earlier e.queue = some (ev, queue)) (hdue : ev.due ≤ e.now)
    (hnum : num ev.seq = none) (hcore : loop.core cluster = loop.core e.cluster) :
    Paired loop c injectors num [] (e.landed sha256 ev queue cluster) e' :=
  { h with
    left := h.left.deliver hpop hdue
    core := hcore.trans h.core
    queue := by
      have hfilter := (BinaryHeap.pop_perm hpop).filterMap (renumber num)
      rw [List.filterMap_cons_none (renumber_none hnum)] at hfilter
      exact h.queue.trans hfilter
    deliveries := by
      have hskip : redeliver num ⟨e.now, ev.toID, ev⟩ = none := by
        rw [redeliver, renumber_none hnum]
        rfl
      show _ = (e.books.deliveries ++ [_]).filterMap (redeliver num)
      rw [List.filterMap_append, List.filterMap_cons_none hskip, List.filterMap_nil,
        List.append_nil]
      exact h.deliveries }

/-- When the event at the root on the left is on the right too, it is at the root there. -/
theorem Paired.pop (h : Paired loop c injectors num [] e e')
    (hpop : BinaryHeap.pop earlier e.queue = some (ev, queue)) (hnum : num ev.seq = some k) :
    ∃ queue', BinaryHeap.pop earlier e'.queue = some ({ ev with seq := k }, queue') ∧
      queue'.toList.Perm (queue.toList.filterMap (renumber num)) := by
  have hlater := pop_earlier h.left.heap h.left.queue_nodup hpop
  have hfilter := (BinaryHeap.pop_perm hpop).filterMap (renumber num)
  rw [List.filterMap_cons_some (renumber_some hnum)] at hfilter
  have hqueue : e'.queue.toList.Perm
      ({ ev with seq := k } :: queue.toList.filterMap (renumber num)) := h.queue.trans hfilter
  have hsize : 0 < e'.queue.size := by
    have hlength := hqueue.length_eq
    rw [Array.length_toList, List.length_cons] at hlength
    omega
  obtain ⟨queue', hpop'⟩ := BinaryHeap.pop_isSome earlier (Array.getElem?_eq_getElem hsize)
  have hroot : e'.queue[0] = { ev with seq := k } := by
    have hperm' := BinaryHeap.pop_perm hpop'
    have hmem : e'.queue[0] ∈ ({ ev with seq := k } : Event M) :: queue.toList.filterMap (renumber num) :=
      hqueue.mem_iff.mp (hperm'.mem_iff.mpr List.mem_cons_self)
    rcases List.mem_cons.mp hmem with heq | hmem
    · exact heq
    · -- Otherwise the event would come later on the left, and so would it here.
      obtain ⟨other, hother, hrenumber⟩ := List.mem_filterMap.mp hmem
      have hbefore := renumber_earlier h.mono (renumber_some hnum) hrenumber (hlater other hother)
      have hle := (BinaryHeap.pop_heap earlier_iff h.right.heap hpop').2 { ev with seq := k }
        (hqueue.mem_iff.mpr List.mem_cons_self)
      exact absurd ((earlier_iff _ _).mp hbefore) (not_lt.mpr hle)
  rw [hroot] at hpop'
  exact ⟨queue', hpop', ((BinaryHeap.pop_perm hpop').symm.trans hqueue).cons_inv⟩

/-- An event that no injector denies is delivered on both sides. -/
theorem Paired.land {cluster' : γ} (h : Paired loop c injectors num [] e e')
    (hpop : BinaryHeap.pop earlier e.queue = some (ev, queue)) (hdue : ev.due ≤ e.now)
    (hnum : num ev.seq = some k)
    (hpop' : BinaryHeap.pop earlier e'.queue = some ({ ev with seq := k }, queue'))
    (hqueue : queue'.toList.Perm (queue.toList.filterMap (renumber num)))
    (hcore : loop.core cluster = loop.core e.cluster)
    (hcore' : loop.core cluster' = loop.core e'.cluster) :
    Paired loop c injectors num [] (e.landed sha256 ev queue cluster)
      (e'.landed sha256 { ev with seq := k } queue' cluster') :=
  { h with
    left := h.left.deliver hpop hdue
    right := h.right.deliver hpop' (h.now ▸ hdue)
    core := hcore.trans (h.core.trans hcore'.symm)
    queue := hqueue
    deliveries := by
      have hboth : redeliver num ⟨e.now, ev.toID, ev⟩ = some ⟨e'.now, ev.toID, { ev with seq := k }⟩ := by
        rw [redeliver, renumber_some hnum, h.now]
        rfl
      show e'.books.deliveries ++ [_] = (e.books.deliveries ++ [_]).filterMap (redeliver num)
      rw [List.filterMap_append, List.filterMap_cons_some hboth, List.filterMap_nil, h.deliveries] }

/-! ## The loops -/

variable [Rand ρ]

/-- Both runs draw the same numbers for a message. -/
theorem Paired.post (hnamed : ∀ injector ∈ injectors, injector.Named)
    (h : Paired loop c injectors num (m :: rest) e e') (hpost : e.post m = some e₁) :
    ∃ e₁', e'.post m = some e₁' ∧ ∃ num', Paired loop c injectors num' rest e₁ e₁' := by
  have hnamed' : ∀ injector ∈ e'.injectors, injector.Named := h.faults.symm ▸ hnamed
  have hdelay' : e'.delay = e.delay := h.right.delay.trans h.left.delay.symm
  have hleft := h.left.post hpost
  cases Engine.post_eq_some.mp hpost with
  | @lost rng hloss =>
    have hloss' : drawLoss e'.drop e'.rng = (true, rng) := by
      rw [h.drop, h.rng, hloss]
    exact ⟨_, Engine.post_eq_some.mpr (.lost hloss'), num, h.lose⟩
  | blocked _ _ hblocked =>
    unfold Engine.blockedBy at hblocked
    rw [h.bare] at hblocked
    exact absurd rfl hblocked
  | @scheduled rng rng' d hloss hdelay _ =>
    have hloss' : drawLoss e'.drop e'.rng = (false, rng) := by
      rw [h.drop, h.rng, hloss]
    rw [← hdelay'] at hdelay
    have hempty := blockedBy_eq_empty hnamed' (Wire.route m).1 (Wire.route m).2 d
    rw [h.faults, h.now] at hempty
    by_cases hdenied : Denied injectors e.now (Wire.route m).1 (Wire.route m).2 d
    · have hblocked : e'.blockedBy (Wire.route m).1 (Wire.route m).2 d ≠ "" :=
        fun heq => hempty.mp heq hdenied
      have hpost' := Engine.post_eq_some.mpr (.blocked hloss' hdelay hblocked)
      exact ⟨_, hpost', num, h.deny rfl (by simpa using hdenied) hleft (h.right.post hpost')⟩
    · have hpost' := Engine.post_eq_some.mpr (.scheduled hloss' hdelay (hempty.mpr hdenied))
      refine ⟨_, hpost', _, h.schedule rfl ?_ (by simpa using hdenied) hleft (h.right.post hpost')⟩
      rw [h.now]

theorem Beside.collectNode (hnamed : ∀ injector ∈ injectors, injector.Named)
    (h : Beside loop c injectors [] e e') (id : Nat) :
    Follows live (Beside loop c injectors []) (e.collectNode id) (e'.collectNode id) := by
  obtain ⟨num, h⟩ := h
  intro e₁ he₁
  unfold Engine.collectNode at he₁ ⊢
  obtain ⟨⟨messages, cluster⟩, hdrain, hfold⟩ := Option.bind_eq_some_iff.mp he₁
  obtain ⟨cluster', hdrain', hcore⟩ := loop.drain_core h.core hdrain
  rw [hdrain']
  refine Follows.foldlM (R := Beside loop c injectors) ⟨num, ?_⟩ ?_ e₁ hfold
  · exact { h with left := h.left.drain messages, right := h.right.drain messages, core := hcore }
  · rintro m rest a b ⟨num, hab⟩
    exact Follows.of_some fun a₁ ha₁ => hab.post hnamed ha₁

theorem Beside.collect (hnamed : ∀ injector ∈ injectors, injector.Named)
    (h : Beside loop c injectors [] e e') :
    Follows live (Beside loop c injectors []) e.collect e'.collect := by
  unfold Engine.collect
  rw [h.nodes]
  exact Follows.foldlM (R := fun _ => Beside loop c injectors []) h
    fun id _ a b hab => hab.collectNode hnamed id

theorem dispatch_landed (ev : Event M) (queue : Array (Event M)) (hquiet : loop.Quiet e.cluster)
    (hdeliver : Cluster.deliver ev.toID ev.msg e.cluster = some cluster) :
    ∃ cluster', loop.core cluster' = loop.core e.cluster ∧
      ({ e with queue := queue } : Engine γ M ρ).dispatch sha256 ev =
        some (e.landed sha256 ev queue cluster') := by
  have hcore : loop.core cluster = loop.core e.cluster := loop.deliver_core hdeliver
  have hquiet' : loop.Quiet (e.landed sha256 ev queue cluster).cluster :=
    OpenLoop.quiet_core hcore.symm hquiet
  obtain ⟨cluster', hcollect, hcore'⟩ := OpenLoop.collect_of_quiet hquiet'
  refine ⟨cluster', hcore'.trans hcore, ?_⟩
  exact Option.bind_eq_some_iff.mpr ⟨cluster, hdeliver, hcollect⟩

theorem landed_of_dispatch (hquiet : loop.Quiet e.cluster)
    (h : ({ e with queue := queue } : Engine γ M ρ).dispatch sha256 ev = some e₁) :
    ∃ cluster, loop.core cluster = loop.core e.cluster ∧ e₁ = e.landed sha256 ev queue cluster := by
  obtain ⟨cluster, hdeliver, _⟩ := Option.bind_eq_some_iff.mp h
  obtain ⟨cluster', hcore, hlanded⟩ := dispatch_landed ev queue hquiet hdeliver
  exact ⟨cluster', hcore, Option.some.inj (h.symm.trans hlanded)⟩

/-- No delivery panics. -/
def Reliable (γ M : Type) [Cluster γ M] : Prop :=
  ∀ (id : Nat) (m : M) (cluster : γ), (Cluster.deliver id m cluster).isSome

theorem Paired.deliverDue {rounds rounds' : Nat} (h : Paired loop c injectors num [] e e')
    (hquiet : loop.Quiet e.cluster) (hle : rounds ≤ rounds') :
    Follows (Reliable γ M) (Beside loop c injectors []) (e.deliverDue sha256 rounds)
      (e'.deliverDue sha256 rounds') := by
  -- The right loop makes fewer rounds: one for each round of the left loop that is not skipped.
  induction rounds generalizing num e e' rounds' with
  | zero => exact fun a ha => nomatch ha
  | succ rounds ih =>
    obtain ⟨more, rfl⟩ : ∃ more, rounds' = more + 1 := ⟨rounds' - 1, by omega⟩
    have hquiet' : loop.Quiet e'.cluster := OpenLoop.quiet_core h.core hquiet
    rcases e.due_cases with hroot | ⟨ev, queue, hpop, hdue⟩
    · have hroot' : ∀ root, e'.queue[0]? = some root → e'.now < root.due := by
        intro root hfirst
        obtain ⟨hsize, rfl⟩ := Array.getElem?_eq_some_iff.mp hfirst
        have hmem := h.queue.mem_iff.mp (Array.mem_toList_iff.mpr (Array.getElem_mem hsize))
        obtain ⟨other, hother, hrenumber⟩ := List.mem_filterMap.mp hmem
        obtain ⟨k, _, heq⟩ := renumber_eq_some.mp hrenumber
        rw [← heq, h.now]
        exact none_due h.left.heap hroot other hother
      rw [Engine.deliverDue_stop sha256 hroot, Engine.deliverDue_stop sha256 hroot']
      refine Follows.of_some fun a ha => ⟨e', rfl, num, ?_⟩
      cases ha
      exact h
    · rw [Engine.deliverDue_pop sha256 hpop hdue]
      cases hnum : num ev.seq with
      | none =>
        intro a ha
        obtain ⟨e₁, hdispatch, ha⟩ := Option.bind_eq_some_iff.mp ha
        obtain ⟨cluster, hcore, rfl⟩ := landed_of_dispatch hquiet hdispatch
        exact ih (h.skip hpop hdue hnum hcore) (OpenLoop.quiet_core hcore.symm hquiet) (by omega) a ha
      | some k =>
        obtain ⟨queue', hpop', hqueue⟩ := h.pop hpop hnum
        rw [Engine.deliverDue_pop sha256 hpop' (h.now ▸ hdue)]
        refine Follows.bind (R := fun a b => Beside loop c injectors [] a b ∧ loop.Quiet a.cluster) ?_
          fun a b hab => ?_
        · intro a ha
          obtain ⟨cluster, hcore, rfl⟩ := landed_of_dispatch hquiet ha
          refine ⟨fun hreliable => ?_, fun b hb => ?_⟩
          · obtain ⟨cluster', hdeliver⟩ := Option.isSome_iff_exists.mp
              (hreliable ev.toID ev.msg e'.cluster)
            obtain ⟨_, _, hlanded⟩ := dispatch_landed { ev with seq := k } queue' hquiet' hdeliver
            exact Option.isSome_iff_exists.mpr ⟨_, hlanded⟩
          · obtain ⟨cluster', hcore', rfl⟩ := landed_of_dispatch hquiet' hb
            exact ⟨⟨num, h.land hpop hdue hnum hpop' hqueue hcore hcore'⟩,
              OpenLoop.quiet_core hcore.symm hquiet⟩
        · obtain ⟨⟨num, hab⟩, hquiet⟩ := hab
          exact ih hab hquiet (by omega)

theorem Beside.step (hnamed : ∀ injector ∈ injectors, injector.Named) (rounds : Nat)
    (h : Beside loop c injectors [] e e') :
    Follows (Reliable γ M) (Beside loop c injectors []) (e.step sha256 rounds)
      (e'.step sha256 rounds) := by
  have hclock : Beside loop c injectors [] { e with now := e.now + 1 }
      { e' with now := e'.now + 1 } := by
    obtain ⟨num, h⟩ := h
    exact ⟨num, { h with
      left := h.left.clock
      right := h.right.clock
      now := congrArg (· + 1) h.now }⟩
  unfold Engine.step
  simp only
  rw [h.nodes]
  refine Follows.bind (R := Beside loop c injectors []) ?_ fun a b hab => ?_
  · exact Follows.foldlM (R := fun _ => Beside loop c injectors []) hclock
      fun id _ a b hab => hab.tick id
  · refine Follows.bind (R := fun a b => Beside loop c injectors [] a b ∧ loop.Quiet a.cluster) ?_
      fun a₁ b₁ hab₁ => ?_
    · intro a₁ ha₁
      obtain ⟨hlive, hbeside⟩ := hab.collect hnamed a₁ ha₁
      exact ⟨hlive, fun b₁ hb₁ => ⟨hbeside b₁ hb₁, OpenLoop.collect_quiet ha₁⟩⟩
    · obtain ⟨⟨num, hpaired⟩, hquiet⟩ := hab₁
      exact hpaired.deliverDue hquiet (Nat.le_refl rounds)

theorem Beside.exec (hnamed : ∀ injector ∈ injectors, injector.Named) {call : Engine.Call γ}
    (hcall : loop.Respects call) (h : Beside loop c injectors [] e e') :
    Follows (Reliable γ M) (Beside loop c injectors []) (e.exec sha256 call)
      (e'.exec sha256 call) := by
  cases call with
  | step rounds => exact h.step hnamed rounds
  | collect => exact h.collect hnamed
  | isolate node =>
    refine Follows.of_some fun a ha => ⟨_, rfl, ?_⟩
    cases ha
    exact h.isolate node
  | inject injectors => exact hcall.elim
  | drive action =>
    obtain ⟨num, h⟩ := h
    refine Follows.of_some fun a ha => ⟨_, rfl, num, ?_⟩
    cases ha
    exact { h with
      left := { h.left with }
      right := { h.right with }
      core := hcall _ _ h.core }

theorem Beside.run (hnamed : ∀ injector ∈ injectors, injector.Named) {calls : List (Engine.Call γ)}
    (hcalls : ∀ call ∈ calls, loop.Respects call) (h : Beside loop c injectors [] e e') :
    Follows (Reliable γ M) (Beside loop c injectors []) (e.run sha256 calls)
      (e'.run sha256 calls) := by
  let R (rest : List (Engine.Call γ)) (a b : Engine γ M ρ) : Prop :=
    Beside loop c injectors [] a b ∧ ∀ call ∈ rest, loop.Respects call
  have hstep : ∀ call rest a b, R (call :: rest) a b →
      Follows (Reliable γ M) (R rest) (a.exec sha256 call) (b.exec sha256 call) := by
    rintro call rest a b ⟨hab, hrest⟩ a₁ ha₁
    obtain ⟨hlive, hbeside⟩ := hab.exec hnamed (hrest call List.mem_cons_self) a₁ ha₁
    exact ⟨hlive, fun b₁ hb₁ => ⟨hbeside b₁ hb₁,
      fun call' hmem => hrest call' (List.mem_cons_of_mem call hmem)⟩⟩
  intro a ha
  obtain ⟨hlive, hbeside⟩ := Follows.foldlM (R := R) ⟨h, hcalls⟩ hstep a ha
  exact ⟨hlive, fun b hb => (hbeside b hb).1⟩

end Pairing

/-! ## What the pairing says -/

section Reading

variable [Cluster γ M] [Wire M] {loop : OpenLoop γ M κ} {c : Config} {injectors : List Injector}
variable {num : Nat → Option Nat} {e e' : Engine γ M ρ}

theorem Paired.denies_iff (h : Paired loop c injectors num [] e e') {ev : Event M}
    (hev : ev ∈ e.books.scheduled) : e.books.denies injectors ev = true ↔ num ev.seq = none := by
  unfold Books.denies
  rw [List.any_eq_true]
  constructor
  · rintro ⟨l, hl, hcond⟩
    simp only [Bool.and_eq_true, Option.any_eq_true, decide_eq_true_eq, Bool.not_eq_true',
      decide_eq_false_iff_not] at hcond
    obtain ⟨⟨other, hother, hseq⟩, hdenied⟩ := hcond
    rw [← hseq]
    exact (h.judged l hl other (Fate.event?_eq_some.mp hother)).mpr hdenied
  · intro hnum
    obtain ⟨l, hl, hfate⟩ := List.mem_filterMap.mp hev
    have hdenied := (h.judged l hl ev (Fate.event?_eq_some.mp hfate)).mp hnum
    refine ⟨l, hl, ?_⟩
    simp [hfate, hdenied]

theorem Paired.observed (h : Paired loop c injectors num [] e e') :
    e'.books.deliveries.map Delivery.observed =
      (e.books.deliveries.filter fun d => !e.books.denies injectors d.event).map
        Delivery.observed := by
  rw [h.deliveries, List.map_filterMap, ← List.filterMap_eq_map, List.filterMap_filter]
  refine List.filterMap_congr fun d hd => ?_
  have hdenies := h.denies_iff (h.left.delivered_scheduled (List.mem_map_of_mem hd))
  cases hnum : num d.event.seq with
  | none =>
    rw [hdenies.mpr hnum, redeliver, renumber_none hnum]
    rfl
  | some k =>
    have hallowed : e.books.denies injectors d.event = false := by
      rw [Bool.eq_false_iff, Ne, hdenies, hnum]
      nofun
    rw [hallowed, redeliver, renumber_some hnum]
    rfl

omit [Cluster γ M] [Wire M] in
/-- The blocked letters, counted name by name. -/
theorem sum_countP_blocked (names : Finset String) (letters : List (Letter M))
    (h : ∀ l ∈ letters, ∀ name, l.fate = .blocked name → name ∈ names) :
    ∑ name ∈ names, letters.countP (·.fate.isBlockedBy name) =
      letters.countP (·.fate.isBlocked) := by
  induction letters with
  | nil => simp
  | cons l letters ih =>
    have hrest := ih fun l' hl' => h l' (List.mem_cons_of_mem l hl')
    simp only [List.countP_cons, Finset.sum_add_distrib, hrest]
    congr 1
    cases hfate : l.fate with
    | lost => simp [Fate.isBlockedBy, Fate.isBlocked]
    | blocked name =>
      have hmem := h l List.mem_cons_self name hfate
      simp [Fate.isBlockedBy, Fate.isBlocked, hmem]
    | scheduled event => simp [Fate.isBlockedBy, Fate.isBlocked]

theorem Paired.injected_sum (h : Paired loop c injectors num [] e e') :
    ∑ name ∈ (injectors.map (·.name)).toFinset, e'.injected name =
      e.books.letters.countP fun l => !decide (l.Allowed injectors) := by
  rw [← h.blocked, ← sum_countP_blocked (injectors.map (·.name)).toFinset]
  · exact Finset.sum_congr rfl fun name _ => h.right.injected name
  · intro l hl name hname
    obtain ⟨injector, hmem, heq⟩ := h.right.named l hl name hname
    rw [h.faults] at hmem
    rw [List.mem_toFinset, ← heq]
    exact List.mem_map_of_mem hmem

theorem Paired.injected_other (h : Paired loop c injectors num [] e e') {name : String}
    (hname : name ∉ injectors.map (·.name)) : e'.injected name = 0 := by
  rw [h.right.injected, List.countP_eq_zero]
  intro l hl hblocked
  cases hfate : l.fate with
  | lost | scheduled => simp [hfate, Fate.isBlockedBy] at hblocked
  | blocked name' =>
    obtain ⟨injector, hmem, heq⟩ := h.right.named l hl name' hfate
    simp only [hfate, Fate.isBlockedBy, decide_eq_true_eq] at hblocked
    rw [h.faults] at hmem
    exact hname (hblocked ▸ heq ▸ List.mem_map_of_mem hmem)

end Reading

/-! ## Every open loop -/

/-- The run of an open loop with injectors delivers what the run without them delivers, at
the same times and in the same order, less the messages that an injector denies for their
time of sending, their route and their delay; the drops it counts are these messages, those
that are not yet due included. If no delivery panics, it takes no more rounds than the run
without. -/
theorem injectors_keep_schedule [Cluster γ M] [Wire M] [Rand ρ] (loop : OpenLoop γ M κ)
    (sha256 : List UInt8 → List UInt8) (c : Config) (rng : ρ) (cluster : γ)
    (injectors : List Injector) (calls : List (Engine.Call γ)) (e : Engine γ M ρ)
    (hnamed : ∀ injector ∈ injectors, injector.Named)
    (hcalls : ∀ call ∈ calls, loop.Respects call)
    (hrun : (Engine.new c rng cluster : Engine γ M ρ).run sha256 calls = some e) :
    (Reliable γ M → ∃ e', ((Engine.new c rng cluster : Engine γ M ρ).inject injectors).run sha256
      calls = some e') ∧
    ∀ e', ((Engine.new c rng cluster : Engine γ M ρ).inject injectors).run sha256 calls = some e' →
      e'.books.deliveries.map Delivery.observed =
        (e.books.deliveries.filter fun d => !e.books.denies injectors d.event).map
          Delivery.observed ∧
      ∑ name ∈ (injectors.map (·.name)).toFinset, e'.injected name =
        e.books.letters.countP (fun l => !decide (l.Allowed injectors)) ∧
      ∀ name, name ∉ injectors.map (·.name) → e'.injected name = 0 := by
  have hstart : Beside loop c injectors [] (Engine.new c rng cluster : Engine γ M ρ)
      ((Engine.new c rng cluster : Engine γ M ρ).inject injectors) := ⟨_, new_paired rng cluster⟩
  obtain ⟨hlive, hbeside⟩ := hstart.run hnamed hcalls e hrun
  refine ⟨fun hreliable => Option.isSome_iff_exists.mp (hlive hreliable), fun e' hrun' => ?_⟩
  obtain ⟨num, h⟩ := hbeside e' hrun'
  exact ⟨h.observed, h.injected_sum, fun name hname => h.injected_other hname⟩

/-! ## The ring -/

/-- Two overlapping faults on a ring with loss, a node that is isolated, and a client that makes
a node send. -/
def facingScript : List (Engine.Call Ring) :=
  [.step 9, .step 9, .drive fun r =>
    { r with outbound := update r.outbound 2 (r.outbound 2 ++ [(2, 4, 0)]) }, .collect, .isolate 3,
    .step 9, .step 9]

def facingFaults : List Injector :=
  [.link 1 2, .during 2 4 (.split [1, 2] [3, 4])]

/-- Of six deliveries the faults take four; with what is isolated or still pending they drop
seven messages. -/
theorem injectors_keep_schedule_ring :
    ∃ e e', ringEngine.run id facingScript = some e ∧
      (ringEngine.inject facingFaults).run id facingScript = some e' ∧
      (e.books.deliveries.length, e'.books.deliveries.length,
        e'.injected "link1->2" + e'.injected "split[1 2]|[3 4]@[2,4)") = (6, 2, 7) ∧
      e'.books.deliveries.map Delivery.observed =
        (e.books.deliveries.filter fun d => !e.books.denies facingFaults d.event).map
          Delivery.observed := by
  have hnamed : ∀ injector ∈ facingFaults, injector.Named := by decide
  have hcalls : ∀ call ∈ facingScript, Ring.openLoop.Respects call := by
    intro call hmem
    simp only [facingScript, List.mem_cons, List.not_mem_nil, or_false] at hmem
    rcases hmem with rfl | rfl | rfl | rfl | rfl | rfl | rfl
    case inr.inr.inl =>
      intro a b hcore
      obtain ⟨received, rfl⟩ := Ring.core_eq.mp hcore
      rfl
    all_goals trivial
  have hwithout : (ringEngine.run id facingScript).map (·.books.deliveries.length) = some 6 := by
    decide +kernel
  have hwith : ((ringEngine.inject facingFaults).run id facingScript).map (fun e' =>
      (e'.books.deliveries.length,
        e'.injected "link1->2" + e'.injected "split[1 2]|[3 4]@[2,4)")) = some (2, 7) := by
    decide +kernel
  obtain ⟨e, hrun, hlength⟩ := Option.map_eq_some_iff.mp hwithout
  obtain ⟨e', hrun', hcounts⟩ := Option.map_eq_some_iff.mp hwith
  have hsame := (injectors_keep_schedule Ring.openLoop id _ _ _ facingFaults facingScript e hnamed
    hcalls hrun).2 e' hrun'
  exact ⟨e, e', hrun, hrun', by rw [hlength, hcounts], hsame.1⟩

end Promtact.Dst
