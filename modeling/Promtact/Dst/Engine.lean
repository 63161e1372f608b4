import Promtact.BinaryHeap
import Promtact.Bytes

/-!
# The deterministic engine: the model

The engine of `dst`, over any protocol. It owns virtual time, the seeded schedule and
the trace; the cluster behind `Cluster` and the messages behind `Wire` are arbitrary,
and so are the random stream and the hash of the trace.

A call that panics returns `none`. A step may also cascade for ever: it takes a bound
on its deliveries and returns `none` when they do not suffice, so that a step
terminates when some bound gives a result, and then the result does not depend on the
bound (`deliverDue_le`).

`Books` is not in the source. It notes what became of every message, and nothing reads
it.
-/

namespace Promtact.Dst

open Function (update)

/-! ## What the engine drives -/

/-- All protocol state of one deployment. -/
class Cluster (γ : Type) (M : outParam Type) where
  nodes : γ → List Nat
  tick : Nat → γ → Option γ
  deliver : Nat → M → γ → Option γ
  /-- The messages the node wants to send; its buffer is empty afterwards. -/
  drain : Nat → γ → Option (List M × γ)

/-- The engine's view of a message. -/
class Wire (M : Type) where
  /-- The sender and the destination. -/
  route : M → Nat × Nat
  digest : M → UInt8 × Nat

/-- A stream of draws. The arguments of the draws are positive. -/
class Rand (ρ : Type) where
  intn : ρ → Nat → Nat × ρ
  int63n : ρ → Nat → Nat × ρ
  int63n_lt : ∀ rng n, 0 < n → (int63n rng n).1 < n

/-- A programmed network fault. -/
structure Injector where
  name : String
  allow : (now fromID toID delay : Nat) → Bool

structure Config where
  dropPermille : Int
  maxDelay : Nat

structure Event (M : Type) where
  /-- The time at which the message comes due. -/
  due : Nat
  seq : Nat
  fromID : Nat
  toID : Nat
  msg : M
  deriving DecidableEq

/-- The order of the schedule: due time first, then sequence number. -/
def earlier {M : Type} (a b : Event M) : Bool :=
  a.due < b.due || (a.due = b.due && a.seq < b.seq)

/-! ## Books -/

/-- What collecting does with a message. -/
inductive Fate (M : Type)
  | lost
  | blocked (name : String)
  | scheduled (event : Event M)

/-- A drained message, and the time at which it was collected. -/
structure Letter (M : Type) where
  msg : M
  sent : Nat
  fate : Fate M

structure Delivery (M : Type) where
  now : Nat
  node : Nat
  event : Event M
  deriving DecidableEq

structure Books (M : Type) where
  /-- What the cluster handed out, in order. -/
  drained : List M := []
  letters : List (Letter M) := []
  deliveries : List (Delivery M) := []
  /-- What `isolate` discarded. -/
  isolated : List (Event M) := []

/-! ## The engine -/

structure Engine (γ M ρ : Type) where
  now : Nat := 0
  cluster : γ
  rng : ρ
  drop : Int
  delay : Nat
  seq : Nat := 0
  queue : Array (Event M) := #[]
  trace : List UInt8 := List.replicate 32 0
  injectors : List Injector := []
  injected : String → Nat := fun _ => 0
  books : Books M := {}

variable {γ M ρ : Type} [Cluster γ M] [Wire M] [Rand ρ]

def Engine.new (c : Config) (rng : ρ) (cluster : γ) : Engine γ M ρ where
  cluster := cluster
  rng := rng
  drop := c.dropPermille
  delay := c.maxDelay

/-- The loss of a message is drawn only when loss is on. -/
def drawLoss (drop : Int) (rng : ρ) : Bool × ρ :=
  if drop > 0 then
    let (x, rng) := Rand.intn rng 1000
    ((x : Int) < drop, rng)
  else (false, rng)

/-- The delay of a message. The bound is converted to a signed word, and the draw
panics when it is not positive. -/
def drawDelay (delay : Nat) (rng : ρ) : Option (Nat × ρ) :=
  if delay > 0 then
    let bound := (BitVec.ofNat 64 (delay + 1)).toInt
    if bound ≤ 0 then none else some (Rand.int63n rng bound.toNat)
  else some (0, rng)

/-- What the trace hash covers of one delivery. -/
def traceBlock (now seq fromID toID : Nat) (kind : UInt8) (value : Nat) (trace : List UInt8) :
    List UInt8 :=
  Bytes.put 8 now ++ Bytes.put 8 seq ++ Bytes.put 4 fromID ++ Bytes.put 4 toID ++ [kind] ++
    Bytes.put 8 value ++ trace

namespace Engine

def note (e : Engine γ M ρ) (m : M) (fate : Fate M) : Books M :=
  { e.books with letters := e.books.letters ++ [⟨m, e.now, fate⟩] }

/-- The name of the first injector that denies the message, or the empty string. -/
def blockedBy (e : Engine γ M ρ) (fromID toID delay : Nat) : String :=
  match e.injectors.find? fun injector => !injector.allow e.now fromID toID delay with
  | some injector => injector.name
  | none => ""

/-- One collected message: loss and delay are drawn before the injectors are asked. -/
def post (e : Engine γ M ρ) (m : M) : Option (Engine γ M ρ) := do
  let (lost, rng) := drawLoss e.drop e.rng
  if lost then
    return { e with rng := rng, books := e.note m .lost }
  let (d, rng) ← drawDelay e.delay rng
  let (fromID, toID) := Wire.route m
  let blocked := e.blockedBy fromID toID d
  if blocked ≠ "" then
    return { e with
      rng := rng
      injected := update e.injected blocked (e.injected blocked + 1)
      books := e.note m (.blocked blocked) }
  let event := ⟨e.now + d, e.seq + 1, fromID, toID, m⟩
  return { e with
    rng := rng
    seq := e.seq + 1
    queue := BinaryHeap.push earlier e.queue event
    books := e.note m (.scheduled event) }

def collectNode (e : Engine γ M ρ) (id : Nat) : Option (Engine γ M ρ) := do
  let (scratch, cluster) ← Cluster.drain id e.cluster
  scratch.foldlM post { e with
    cluster := cluster
    books := { e.books with drained := e.books.drained ++ scratch } }

/-- Drains every node into the schedule. -/
def collect (e : Engine γ M ρ) : Option (Engine γ M ρ) :=
  (Cluster.nodes e.cluster).foldlM collectNode e

variable (sha256 : List UInt8 → List UInt8)

def record (e : Engine γ M ρ) (ev : Event M) : Engine γ M ρ :=
  let (kind, value) := Wire.digest ev.msg
  { e with trace := sha256 (traceBlock e.now ev.seq ev.fromID ev.toID kind value e.trace) }

/-- The popped event goes to its destination, and what that produces is collected. -/
def dispatch (e : Engine γ M ρ) (ev : Event M) : Option (Engine γ M ρ) := do
  let e := e.record sha256 ev
  let cluster ← Cluster.deliver ev.toID ev.msg e.cluster
  collect { e with
    cluster := cluster
    books := { e.books with deliveries := e.books.deliveries ++ [⟨e.now, ev.toID, ev⟩] } }

/-- Delivers while the root of the queue is due. -/
def deliverDue : Nat → Engine γ M ρ → Option (Engine γ M ρ)
  | 0, _ => none
  | rounds + 1, e =>
    match e.queue[0]? with
    | none => some e
    | some root =>
      if root.due ≤ e.now then do
        let (ev, queue) ← BinaryHeap.pop earlier e.queue
        let e ← dispatch sha256 { e with queue := queue } ev
        deliverDue rounds e
      else some e

def tick (e : Engine γ M ρ) (id : Nat) : Option (Engine γ M ρ) := do
  return { e with cluster := ← Cluster.tick id e.cluster }

/-- One unit of time: every node ticks, then everything that is due is delivered. -/
def step (rounds : Nat) (e : Engine γ M ρ) : Option (Engine γ M ρ) := do
  let e := { e with now := e.now + 1 }
  let e ← (Cluster.nodes e.cluster).foldlM tick e
  let e ← collect e
  deliverDue sha256 rounds e

def touches (node : Nat) (ev : Event M) : Bool := ev.fromID = node || ev.toID = node

/-- Discards what is in flight from or to the node, and says how much that was. -/
def isolate (node : Nat) (e : Engine γ M ρ) : Nat × Engine γ M ρ :=
  let kept := e.queue.filter fun ev => !touches node ev
  let dropped := e.queue.toList.filter (touches node)
  (dropped.length, { e with
    queue := BinaryHeap.rebuild earlier kept
    books := { e.books with isolated := e.books.isolated ++ dropped } })

def inject (injectors : List Injector) (e : Engine γ M ρ) : Engine γ M ρ :=
  { e with injectors := e.injectors ++ injectors }

/-! ## Scripts -/

/-- What a caller may do. Between the calls of the engine it may drive the cluster out
of band in any way. -/
inductive Call (γ : Type)
  | step (rounds : Nat)
  | collect
  | isolate (node : Nat)
  | inject (injectors : List Injector)
  | drive (action : γ → γ)

def exec (e : Engine γ M ρ) : Call γ → Option (Engine γ M ρ)
  | .step rounds => e.step sha256 rounds
  | .collect => e.collect
  | .isolate node => some (e.isolate node).2
  | .inject injectors => some (e.inject injectors)
  | .drive action => some { e with cluster := action e.cluster }

def run (e : Engine γ M ρ) (calls : List (Call γ)) : Option (Engine γ M ρ) :=
  calls.foldlM (exec sha256) e

/-! ## One message -/

/-- What can happen to a message that is collected. -/
inductive Posted (e : Engine γ M ρ) (m : M) : Engine γ M ρ → Prop
  | lost {rng : ρ} (hloss : drawLoss e.drop e.rng = (true, rng)) :
    Posted e m { e with rng := rng, books := e.note m .lost }
  | blocked {rng rng' : ρ} {d : Nat} (hloss : drawLoss e.drop e.rng = (false, rng))
    (hdelay : drawDelay e.delay rng = some (d, rng'))
    (hblocked : e.blockedBy (Wire.route m).1 (Wire.route m).2 d ≠ "") :
    Posted e m { e with
      rng := rng'
      injected := update e.injected (e.blockedBy (Wire.route m).1 (Wire.route m).2 d)
        (e.injected (e.blockedBy (Wire.route m).1 (Wire.route m).2 d) + 1)
      books := e.note m (.blocked (e.blockedBy (Wire.route m).1 (Wire.route m).2 d)) }
  | scheduled {rng rng' : ρ} {d : Nat} (hloss : drawLoss e.drop e.rng = (false, rng))
    (hdelay : drawDelay e.delay rng = some (d, rng'))
    (hblocked : e.blockedBy (Wire.route m).1 (Wire.route m).2 d = "") :
    Posted e m { e with
      rng := rng'
      seq := e.seq + 1
      queue := BinaryHeap.push earlier e.queue
        ⟨e.now + d, e.seq + 1, (Wire.route m).1, (Wire.route m).2, m⟩
      books := e.note m
        (.scheduled ⟨e.now + d, e.seq + 1, (Wire.route m).1, (Wire.route m).2, m⟩) }

omit [Cluster γ M] in
theorem post_eq_some {e e' : Engine γ M ρ} {m : M} : e.post m = some e' ↔ Posted e m e' := by
  constructor
  · intro hpost
    unfold post at hpost
    rcases hloss : drawLoss e.drop e.rng with ⟨lost, rng⟩
    rw [hloss] at hpost
    cases lost with
    | true =>
      cases hpost
      exact .lost hloss
    | false =>
      obtain ⟨⟨d, rng'⟩, hdelay, hpost⟩ := Option.bind_eq_some_iff.mp hpost
      simp only at hpost
      split at hpost
      · rename_i hblocked
        cases hpost
        exact .blocked hloss hdelay hblocked
      · rename_i hblocked
        cases hpost
        exact .scheduled hloss hdelay (not_not.mp hblocked)
  · intro hposted
    unfold post
    cases hposted with
    | lost hloss =>
      rw [hloss]
      rfl
    | blocked hloss hdelay hblocked =>
      rw [hloss]
      simp only [Bool.false_eq_true, if_false, hdelay, Option.bind_eq_bind, Option.bind_some,
        if_pos hblocked]
      rfl
    | scheduled hloss hdelay hblocked =>
      rw [hloss]
      simp only [Bool.false_eq_true, if_false, hdelay, Option.bind_eq_bind, Option.bind_some,
        if_neg (not_not.mpr hblocked)]
      rfl

/-! ## One delivery -/

omit [Cluster γ M] [Wire M] [Rand ρ] in
/-- Nothing at the root is due, or the root can be popped. -/
theorem due_cases (e : Engine γ M ρ) :
    (∀ root, e.queue[0]? = some root → e.now < root.due) ∨
    ∃ ev queue, BinaryHeap.pop earlier e.queue = some (ev, queue) ∧ ev.due ≤ e.now := by
  cases hroot : e.queue[0]? with
  | none => exact .inl nofun
  | some root =>
    rcases Nat.lt_or_ge e.now root.due with hlt | hge
    · refine .inl fun root' hroot' => ?_
      cases hroot'
      exact hlt
    · obtain ⟨queue, hpop⟩ := BinaryHeap.pop_isSome earlier hroot
      exact .inr ⟨root, queue, hpop, hge⟩

theorem deliverDue_stop {rounds : Nat} {e : Engine γ M ρ}
    (hroot : ∀ root, e.queue[0]? = some root → e.now < root.due) :
    deliverDue sha256 (rounds + 1) e = some e := by
  rw [deliverDue]
  cases hfirst : e.queue[0]? with
  | none => rfl
  | some root =>
    have hnot : ¬ root.due ≤ e.now := Nat.not_le.mpr (hroot root hfirst)
    exact if_neg hnot

theorem deliverDue_pop {rounds : Nat} {e : Engine γ M ρ} {ev : Event M} {queue : Array (Event M)}
    (hpop : BinaryHeap.pop earlier e.queue = some (ev, queue)) (hdue : ev.due ≤ e.now) :
    deliverDue sha256 (rounds + 1) e =
      (dispatch sha256 { e with queue := queue } ev).bind (deliverDue sha256 rounds) := by
  rw [deliverDue]
  cases hfirst : e.queue[0]? with
  | none =>
    unfold BinaryHeap.pop at hpop
    rw [hfirst] at hpop
    cases hpop
  | some root =>
    obtain ⟨rest, hroot⟩ := BinaryHeap.pop_isSome earlier hfirst
    cases hroot.symm.trans hpop
    simp only [if_pos hdue, hpop]
    rfl

variable {sha256} in
/-- The loop stops at a queue with nothing due, or it delivers the root and goes on. -/
theorem deliverDue_cases {rounds : Nat} {e e' : Engine γ M ρ}
    (h : deliverDue sha256 (rounds + 1) e = some e') :
    (e' = e ∧ ∀ root, e.queue[0]? = some root → e.now < root.due) ∨
    ∃ ev queue e₁, BinaryHeap.pop earlier e.queue = some (ev, queue) ∧ ev.due ≤ e.now ∧
      dispatch sha256 { e with queue := queue } ev = some e₁ ∧
      deliverDue sha256 rounds e₁ = some e' := by
  rcases e.due_cases with hroot | ⟨ev, queue, hpop, hdue⟩
  · rw [deliverDue_stop sha256 hroot] at h
    cases h
    exact .inl ⟨rfl, hroot⟩
  · rw [deliverDue_pop sha256 hpop hdue] at h
    obtain ⟨e₁, hdispatch, h⟩ := Option.bind_eq_some_iff.mp h
    exact .inr ⟨ev, queue, e₁, hpop, hdue, hdispatch, h⟩

/-! ## Bounds -/

/-- More rounds than a step needs change nothing. -/
theorem deliverDue_le {rounds rounds' : Nat} {e e' : Engine γ M ρ}
    (h : deliverDue sha256 rounds e = some e') (hle : rounds ≤ rounds') :
    deliverDue sha256 rounds' e = some e' := by
  induction rounds generalizing e rounds' with
  | zero => cases h
  | succ rounds ih =>
    obtain ⟨more, rfl⟩ : ∃ more, rounds' = more + 1 := ⟨rounds' - 1, by omega⟩
    rcases deliverDue_cases h with ⟨rfl, hroot⟩ | ⟨ev, queue, e₁, hpop, hdue, hdispatch, h⟩
    · exact deliverDue_stop sha256 hroot
    · rw [deliverDue_pop sha256 hpop hdue, hdispatch]
      exact ih h (by omega)

end Engine

end Promtact.Dst
