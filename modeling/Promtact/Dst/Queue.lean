import Promtact.Dst.Conservation
import Promtact.Runs

/-!
# The queue of the engine

The queue is a binary heap under `earlier`. Whatever is pushed, popped and discarded, and in
whatever order: it stays a heap, each operation adds and takes away what it says, and a pop
takes the one event that comes before all others. For the last it matters that no two events
have the same number.
-/

namespace Promtact.Dst

variable {γ M ρ : Type}

/-- What can happen to the queue of an engine. -/
inductive QueueOp (M : Type)
  | push (ev : Event M)
  | pop
  | isolate (node : Nat)

/-- The number of an event that is pushed. -/
def QueueOp.seq? : QueueOp M → Option Nat
  | .push ev => some ev.seq
  | _ => none

/-- No event is earlier than its parent in the array. -/
def HeapOrdered (queue : Array (Event M)) : Prop :=
  ∀ i parent child, 0 < i → queue[(i - 1) / 2]? = some parent → queue[i]? = some child →
    earlier child parent = false

namespace Engine

/-- One operation; `none` when an empty queue is popped. -/
def onQueue (e : Engine γ M ρ) : QueueOp M → Option (Engine γ M ρ)
  | .push ev => some { e with queue := BinaryHeap.push earlier e.queue ev }
  | .pop => (BinaryHeap.pop earlier e.queue).map fun popped => { e with queue := popped.2 }
  | .isolate node => some (e.isolate node).2

end Engine

/-! ## One operation -/

/-- The queue is a heap, and no two events of it, or of those that are still to come, have
the same number. -/
structure Distinct (queue : Array (Event M)) (ops : List (QueueOp M)) : Prop where
  heap : BinaryHeap.IsHeap Event.key queue
  numbers : (queue.toList.map (·.seq) ++ ops.filterMap QueueOp.seq?).Nodup

section Operations

variable {queue rest : Array (Event M)} {ops : List (QueueOp M)} {top : Event M}

theorem earlier_eq_false {a b : Event M} : earlier a b = false ↔ b.key ≤ a.key := by
  rw [← Bool.not_eq_true, earlier_iff, not_lt]

theorem Distinct.ordered (h : Distinct queue ops) : HeapOrdered queue := by
  intro i parent child hi hparent hchild
  exact earlier_eq_false.mpr (h.heap i hi (Nat.zero_le _) parent child hparent hchild)

theorem Distinct.push (ev : Event M) (h : Distinct queue (.push ev :: ops)) :
    Distinct (BinaryHeap.push earlier queue ev) ops where
  heap := BinaryHeap.push_heap earlier_iff h.heap
  numbers := by
    have hperm : (BinaryHeap.push earlier queue ev).toList.Perm (ev :: queue.toList) :=
      BinaryHeap.push_perm
    have hnumbers : (queue.toList.map (·.seq) ++ ev.seq :: ops.filterMap QueueOp.seq?).Nodup :=
      h.numbers
    refine ((hperm.map (·.seq)).append_right _).nodup_iff.mpr ?_
    exact List.perm_middle.nodup_iff.mp hnumbers

/-- The queue loses events, and keeps being a heap. -/
theorem Distinct.shrink {op : QueueOp M} (h : Distinct queue (op :: ops)) (hop : op.seq? = none)
    (hheap : BinaryHeap.IsHeap Event.key rest)
    (hsub : rest.toList.Subperm queue.toList) : Distinct rest ops where
  heap := hheap
  numbers := by
    have hnumbers := h.numbers
    rw [List.filterMap_cons_none hop] at hnumbers
    obtain ⟨kept, hperm, hkept⟩ := hsub
    refine ((hperm.map (·.seq)).append_right _).nodup_iff.mp ?_
    exact ((hkept.map (·.seq)).append_right _).nodup hnumbers

/-- A pop takes the event that is earlier than all others. -/
theorem Distinct.pop_least (h : Distinct queue ops)
    (hpop : BinaryHeap.pop earlier queue = some (top, rest)) :
    ∀ other ∈ rest.toList, earlier top other = true :=
  pop_earlier h.heap (List.nodup_append.mp h.numbers).1 hpop

/-- Draining yields the events in the order of the schedule. -/
theorem Distinct.drain_sorted (h : Distinct queue ops) :
    (BinaryHeap.drain earlier queue).Pairwise fun a b => earlier a b = true := by
  have hperm := BinaryHeap.drain_perm earlier queue
  have hnodup : ((BinaryHeap.drain earlier queue).map (·.seq)).Nodup :=
    (hperm.map (·.seq)).nodup_iff.mpr (List.nodup_append.mp h.numbers).1
  refine (BinaryHeap.drain_sorted earlier_iff h.heap).imp₂ (fun a b hle hne => ?_)
    (List.pairwise_map.mp hnodup)
  exact earlier_of_le hle hne

theorem Distinct.onQueue {e e' : Engine γ M ρ} {op : QueueOp M} (h : Distinct e.queue (op :: ops))
    (hop : e.onQueue op = some e') : Distinct e'.queue ops := by
  cases op with
  | push ev =>
    cases hop
    exact h.push ev
  | pop =>
    obtain ⟨⟨top, rest⟩, hpop, rfl⟩ := Option.map_eq_some_iff.mp hop
    refine h.shrink rfl (BinaryHeap.pop_heap earlier_iff h.heap hpop).1 ?_
    exact (List.sublist_cons_self top _).subperm.trans (BinaryHeap.pop_perm hpop).symm.subperm
  | isolate node =>
    cases hop
    refine h.shrink rfl (BinaryHeap.rebuild_heap earlier_iff) ?_
    exact (isolate_perm node e).subperm.trans List.filter_sublist.subperm

theorem Distinct.run {e e' : Engine γ M ρ} (h : Distinct e.queue ops)
    (hrun : Runs.run Engine.onQueue e ops = some e') : Distinct e'.queue [] := by
  induction ops generalizing e with
  | nil =>
    cases hrun
    exact h
  | cons op ops ih =>
    obtain ⟨e₁, hop, hrest⟩ := Runs.run_cons.mp hrun
    exact ih (h.onQueue hop) hrest

end Operations

/-! ## Every sequence of operations -/

/-- After any sequence of operations on an empty queue, as long as no two events that were
pushed have the same number: the queue is a heap; a push adds one event; a pop takes the one
event that is earlier than every other; isolating a node takes away its events and says how
many these were; the loop that sifts down ends; and draining yields the events in order. -/
theorem queue_orders_schedule {e₀ e : Engine γ M ρ} {ops : List (QueueOp M)} (hempty : e₀.queue = #[])
    (hdistinct : (ops.filterMap QueueOp.seq?).Nodup)
    (hrun : Runs.run Engine.onQueue e₀ ops = some e) :
    HeapOrdered e.queue ∧
    (∀ ev, ∃ e', e.onQueue (.push ev) = some e' ∧ e'.queue.toList.Perm (ev :: e.queue.toList)) ∧
    (e.queue.toList ≠ [] → ∃ top rest, BinaryHeap.pop earlier e.queue = some (top, rest) ∧
      e.onQueue .pop = some { e with queue := rest } ∧
      e.queue.toList.Perm (top :: rest.toList) ∧
      ∀ other ∈ rest.toList, earlier top other = true) ∧
    (∀ node, (e.isolate node).1 =
        e.queue.toList.countP (fun ev => ev.fromID = node ∨ ev.toID = node) ∧
      (e.isolate node).2.queue.toList.Perm
        (e.queue.toList.filter fun ev => ev.fromID ≠ node ∧ ev.toID ≠ node)) ∧
    (∀ (queue : Array (Event M)) (i : Nat),
      BinaryHeap.SiftsDown earlier queue i (BinaryHeap.siftDown earlier queue.size queue i)) ∧
    (BinaryHeap.drain earlier e.queue).Perm e.queue.toList ∧
    (BinaryHeap.drain earlier e.queue).Pairwise fun a b => earlier a b = true := by
  have hstart : Distinct e₀.queue ops := by
    rw [hempty]
    exact ⟨fun j _ _ x y hx => by simp at hx, hdistinct⟩
  have h := hstart.run hrun
  refine ⟨h.ordered, fun ev => ⟨_, rfl, BinaryHeap.push_perm⟩, fun hne => ?_, fun node => ⟨?_, ?_⟩,
    fun queue i => BinaryHeap.siftsDown_siftDown (Nat.le_add_left _ _),
    BinaryHeap.drain_perm earlier e.queue, h.drain_sorted⟩
  · have hsize : 0 < e.queue.size := by
      rw [← Array.length_toList]
      exact List.length_pos_iff.mpr hne
    obtain ⟨rest, hpop⟩ := BinaryHeap.pop_isSome earlier (Array.getElem?_eq_getElem hsize)
    refine ⟨_, rest, hpop, ?_, BinaryHeap.pop_perm hpop, h.pop_least hpop⟩
    simp only [Engine.onQueue, hpop, Option.map_some]
  · rw [List.countP_eq_length_filter]
    show (e.queue.toList.filter (Engine.touches node)).length = _
    congr 2
    funext ev
    simp [Engine.touches]
  · refine (isolate_perm node e).trans (List.Perm.of_eq ?_)
    congr 1
    funext ev
    simp [Engine.touches]

/-- Three events with two of them due at the same time, one more with the same due time
again, a pop, and an isolated node. -/
def crossingOps : List (QueueOp Nat) :=
  [.push ⟨5, 1, 1, 2, 10⟩, .push ⟨3, 2, 2, 3, 11⟩, .push ⟨5, 3, 3, 1, 12⟩, .pop,
    .push ⟨5, 4, 2, 1, 13⟩, .isolate 3]

def emptyQueue : Engine Unit Nat Unit where
  cluster := ()
  rng := ()
  drop := 0
  delay := 0

theorem queue_orders_schedule_crossingOps : ∃ e : Engine Unit Nat Unit,
    Runs.run Engine.onQueue emptyQueue crossingOps = some e ∧ e.queue.size = 2 ∧
    HeapOrdered e.queue ∧
    (BinaryHeap.drain earlier e.queue).Pairwise fun a b => earlier a b = true := by
  obtain ⟨e, hrun, hsize⟩ := Runs.run_check Engine.onQueue emptyQueue crossingOps
    (fun e => e.queue.size = 2) (by decide +kernel)
  obtain ⟨hheap, _, _, _, _, _, hsorted⟩ := queue_orders_schedule rfl (by decide) hrun
  exact ⟨e, hrun, hsize, hheap, hsorted⟩

end Promtact.Dst
