import Promtact.Runs
import Promtact.Storage.RaftWal

/-!
# A store on a device that fails

A device whose `Append` and `Sync` may fail at any call, as the failing devices of the tests: a
failed append does nothing, a failed sync leaves what was appended pending.

A call of the store appends its record, syncs, and then changes the contents. When the append
fails nothing has happened. When the sync fails the contents do not change either, but the
record stays pending and the sequence number is used up, and the sync of a later call makes both
records durable: then the failed call is visible when the store is opened again, or the store
cannot be opened any more (`failed_call_reappears`). As long as no call is made while something
is pending, a failed call has no effect at all (`failed_call_invisible`).
-/

namespace Promtact.Storage.RaftWal

/-! ## The device -/

/-- A medium, and which calls will fail. -/
structure Failing where
  medium : Wal.MemoryDevice := {}
  fails : Nat → Bool
  calls : Nat := 0

/-- One call, unless it fails. -/
def Failing.call (f : Wal.MemoryDevice → Option Wal.Error × Wal.MemoryDevice) (d : Failing) :
    Option Wal.Error × Failing :=
  if d.fails d.calls then (some .device, { d with calls := d.calls + 1 })
  else ((f d.medium).1, { d with medium := (f d.medium).2, calls := d.calls + 1 })

section Call

variable {f : Wal.MemoryDevice → Option Wal.Error × Wal.MemoryDevice} {d : Failing}

theorem Failing.call_fails (h : d.fails d.calls = true) :
    d.call f = (some .device, { d with calls := d.calls + 1 }) := if_pos h

theorem Failing.call_works (h : d.fails d.calls = false) :
    d.call f = ((f d.medium).1, { d with medium := (f d.medium).2, calls := d.calls + 1 }) :=
  if_neg (by rw [h]; nofun)

end Call

instance : Wal.Device Failing where
  append p := Failing.call (Wal.Device.append p)
  sync := Failing.call Wal.Device.sync
  durableBytes d := (d.medium.durable, d)
  truncateDurable size d :=
    ((Wal.Device.truncateDurable size d.medium).1,
      { d with medium := (Wal.Device.truncateDurable size d.medium).2 })

/-! ## Runs -/

/-- A store, and the calls that have returned without an error. -/
structure Session where
  store : Store Failing
  succeeded : List Op := []

namespace Session

/-- Nothing is pending on the device. -/
def Settled (s : Session) : Prop := s.store.log.device.medium.pending = []

/-- A caller that goes on after errors. -/
def next (s : Session) (op : Op) : Session :=
  match op.exec s.store with
  | .ok _ store => ⟨store, s.succeeded ++ [op]⟩
  | .error _ store => ⟨store, s.succeeded⟩

def start (fails : Nat → Bool) : Session := ⟨{ log := ⟨{ fails := fails }, 1⟩ }, []⟩

end Session

/-! ## One record -/

section AnyDevice

variable {δ : Type} [Wal.Device δ]

theorem append_background (record : Entry) (log : Wal.Log δ) :
    Wal.append Wal.background [record] log =
      match Wal.Device.append (Wal.encode ⟨log.nextSeq, record⟩) log.device with
      | (none, d) => .ok () ⟨d, log.nextSeq + 1⟩
      | (some e, d) => .error e ⟨d, log.nextSeq⟩ := by
  show EStateM.bind (Wal.onDevice (Wal.Device.append (Wal.encode ⟨log.nextSeq, record⟩))) _ log = _
  unfold EStateM.bind Wal.onDevice
  cases Wal.Device.append (Wal.encode ⟨log.nextSeq, record⟩) log.device with
  | mk err d =>
    cases err with
    | none => rfl
    | some e => rfl

/-- Appending a record is a call of `Append` and, when that succeeds, one of `Sync`. -/
theorem appendRecord_eq (record : Entry) (s : Store δ) : appendRecord record s =
    match Wal.Device.append (Wal.encode ⟨s.log.nextSeq, record⟩) s.log.device with
    | (some e, d) => .error (.wal e) { s with log := ⟨d, s.log.nextSeq⟩ }
    | (none, d) =>
      match Wal.Device.sync d with
      | (some e, d') => .error (.wal e) { s with log := ⟨d', s.log.nextSeq + 1⟩ }
      | (none, d') => .ok () { s with log := ⟨d', s.log.nextSeq + 1⟩ } := by
  show EStateM.bind (onLog (Wal.append Wal.background [record])) _ s = _
  unfold EStateM.bind onLog
  rw [append_background]
  cases Wal.Device.append (Wal.encode ⟨s.log.nextSeq, record⟩) s.log.device with
  | mk err d =>
    cases err with
    | some e => rfl
    | none =>
      show onLog (Wal.onDevice Wal.Device.sync) { s with log := ⟨d, s.log.nextSeq + 1⟩ } = _
      unfold onLog Wal.onDevice
      cases hsync : Wal.Device.sync d with
      | mk err d' =>
        cases err with
        | some e => simp only [hsync]
        | none => simp only [hsync]

end AnyDevice

section Calls

variable {s s' : Store Failing} {record : Entry} {records : List Entry} {op : Op}

/-- The log behind a record that is staged or durable. -/
def recorded (log : Wal.Log Failing) (medium : Wal.MemoryDevice) : Wal.Log Failing :=
  ⟨{ log.device with medium := medium, calls := log.device.calls + 2 }, log.nextSeq + 1⟩

/-- The three ways in which appending a record ends. -/
inductive Appends (s : Store Failing) (record : Entry) :
    EStateM.Result Error (Store Failing) Unit → Prop
  | refused : Appends s record (.error (.wal .device)
      { s with log := ⟨{ s.log.device with calls := s.log.device.calls + 1 }, s.log.nextSeq⟩ })
  | pending : Appends s record (.error (.wal .device)
      { s with log := recorded s.log { s.log.device.medium with
          pending := s.log.device.medium.pending ++ Wal.encode ⟨s.log.nextSeq, record⟩ } })
  | durable : Appends s record (.ok ()
      { s with log := recorded s.log ⟨s.log.device.medium.durable ++
          (s.log.device.medium.pending ++ Wal.encode ⟨s.log.nextSeq, record⟩), []⟩ })

theorem appendRecord_appends (s : Store Failing) (record : Entry) :
    Appends s record (appendRecord record s) := by
  rw [appendRecord_eq]
  cases happend : s.log.device.fails s.log.device.calls with
  | true =>
    rw [show Wal.Device.append (Wal.encode ⟨s.log.nextSeq, record⟩) s.log.device = _ from
      Failing.call_fails happend]
    exact .refused
  | false =>
    obtain ⟨d, hd⟩ : ∃ d : Failing, d = { s.log.device with
        medium := { s.log.device.medium with
          pending := s.log.device.medium.pending ++ Wal.encode ⟨s.log.nextSeq, record⟩ }
        calls := s.log.device.calls + 1 } := ⟨_, rfl⟩
    have hstage : Wal.Device.append (Wal.encode ⟨s.log.nextSeq, record⟩) s.log.device = (none, d) :=
      (Failing.call_works happend).trans (by rw [hd]; rfl)
    cases hfails : s.log.device.fails (s.log.device.calls + 1) with
    | true =>
      have hsync : Wal.Device.sync d = (some .device, { d with calls := d.calls + 1 }) :=
        Failing.call_fails (by rw [hd]; exact hfails)
      simp only [hstage, hsync]
      subst hd
      exact .pending
    | false =>
      have hsync : Wal.Device.sync d =
          (none, { d with medium := (Wal.Device.sync d.medium).2, calls := d.calls + 1 }) :=
        Failing.call_works (by rw [hd]; exact hfails)
      simp only [hstage, hsync]
      subst hd
      exact .durable

/-- The durable bytes are the records of the contents. While something is pending the next
sequence number does not matter. -/
structure Mirrors (s : Store Failing) (records : List Entry) : Prop where
  durable : s.log.device.medium.durable = Wal.image 1 records
  replays : records.foldlM replay {} = .ok s.toContents
  numbered : s.log.device.medium.pending = [] →
    s.log.nextSeq = BitVec.ofNat 64 (records.length + 1)

/-- Opening the durable bytes gives the contents. -/
theorem Mirrors.open (h : Mirrors s records) :
    ∃ s', openStore (⟨s.log.device.medium.durable, []⟩ : Wal.MemoryDevice) = .ok s' s'.log.device ∧
      s'.toContents = s.toContents := by
  have hreflects : Reflects { s with log := ⟨⟨s.log.device.medium.durable, []⟩,
      BitVec.ofNat 64 (records.length + 1)⟩ } records :=
    ⟨⟨h.durable, rfl, rfl⟩, h.replays⟩
  obtain ⟨s', hopen, hsame, -⟩ := hreflects.open (show ([] : List UInt8).length < _ by decide)
  rw [List.append_nil] at hopen
  exact ⟨s', hopen, hsame⟩

/-- A call while nothing is pending. -/
theorem Mirrors.exec (h : Mirrors s records) (hsettled : s.log.device.medium.pending = [])
    (hop : op.InRange) :
    (∃ e s', op.exec s = .error e s' ∧ s'.toContents = s.toContents ∧ Mirrors s' records) ∨
    ∃ record s', op.exec s = .ok () s' ∧ op.plan s.toContents = .ok (record, s'.toContents) ∧
      Mirrors s' (records ++ [record]) := by
  rw [exec_eq]
  cases hplan : op.plan s.toContents with
  | error e => exact .inl ⟨e, s, rfl, rfl, h⟩
  | ok planned =>
    obtain ⟨record, c⟩ := planned
    simp only
    have happends := appendRecord_appends s record
    generalize appendRecord record s = result at happends ⊢
    cases happends with
    | refused => exact .inl ⟨_, _, rfl, rfl, h.durable, h.replays, h.numbered⟩
    | pending =>
      -- the record is pending now, so nothing is said about the next number
      have hencode : Wal.encode ⟨s.log.nextSeq, record⟩ ≠ [] :=
        List.ne_nil_of_length_pos (by rw [Wal.length_encode]; exact Nat.succ_pos 111)
      exact .inl ⟨_, _, rfl, rfl, h.durable, h.replays, fun hpending =>
        absurd hpending (List.append_ne_nil_of_right_ne_nil _ hencode)⟩
    | durable =>
      have hmedium : Wal.Represents (⟨s.log.device.medium, s.log.nextSeq⟩ : Wal.Log Wal.MemoryDevice)
          ⟨records, []⟩ := ⟨h.durable, hsettled, h.numbered hsettled⟩
      have hwritten := written_represents hmedium record
      refine .inr ⟨record, _, rfl, rfl, hwritten.durable, ?_, fun _ => hwritten.nextSeq⟩
      rw [List.foldlM_append, h.replays]
      simp only [List.foldlM_cons, List.foldlM_nil, bind, Except.bind, replay_plan hop hplan, pure,
        Except.pure]

end Calls

/-! ## Whole runs -/

theorem run_append (ops ops' : List Op) (s : Store Wal.MemoryDevice) :
    run (ops ++ ops') s = run ops' (run ops s) := by
  induction ops generalizing s with
  | nil => rfl
  | cons op ops ih =>
    simp only [List.cons_append, run]
    split
    · exact ih _
    · exact ih _

/-- On a medium that works, an accepted call does what it plans. -/
theorem run_accepted {ops : List Op} {op : Op} {s : Store Wal.MemoryDevice} {record : Entry}
    {c : Contents} (hplan : op.plan (run ops s).toContents = .ok (record, c)) :
    (run (ops ++ [op]) s).toContents = c := by
  rw [run_append]
  simp only [run]
  rw [exec_memory, hplan]

namespace Session

/-- The contents are what the calls that succeeded would have made of them on a medium that
works, and the durable bytes hold them. -/
structure Faithful (s : Session) : Prop where
  contents : s.store.toContents = (run s.succeeded fresh).toContents
  mirrored : ∃ records, Mirrors s.store records

theorem start_faithful (fails : Nat → Bool) : (start fails).Faithful :=
  ⟨rfl, [], rfl, rfl, fun _ => rfl⟩

theorem Faithful.next {s : Session} {op : Op} (h : s.Faithful) (hop : op.InRange)
    (hsettled : s.Settled) : (s.next op).Faithful := by
  obtain ⟨records, hm⟩ := h.mirrored
  unfold Session.next
  rcases hm.exec hsettled hop with ⟨e, store, hexec, hsame, hm'⟩ |
      ⟨record, store, hexec, hplan, hm'⟩
  · rw [hexec]
    exact ⟨hsame.trans h.contents, records, hm'⟩
  · rw [hexec]
    rw [h.contents] at hplan
    exact ⟨(run_accepted hplan).symm, records ++ [record], hm'⟩

/-- One call of a session, as a step. -/
def step (s : Session) (op : Op) : Option Session := some (s.next op)

end Session

/-- As long as calls are made with nothing pending, the store holds what the successful calls
made, and so does a store that is opened on the durable bytes. -/
theorem failed_call_invisible {fails : Nat → Bool} {ops : List Op} {s : Session}
    (hops : ∀ op ∈ ops, op.InRange)
    (hsettled : Runs.Always Session.step (fun s _ => s.Settled) (Session.start fails) ops)
    (hrun : Runs.run Session.step (Session.start fails) ops = some s) :
    s.store.toContents = (run s.succeeded fresh).toContents ∧
    ∃ s', openStore (⟨s.store.log.device.medium.durable, []⟩ : Wal.MemoryDevice) =
        .ok s' s'.log.device ∧ s'.toContents = s.store.toContents := by
  have hfaithful : s.Faithful := by
    refine Runs.run_invariant (fun s op s' h hp hstep => ?_) (Session.start_faithful fails)
      (hsettled.and (Runs.always_of_forall hops)) hrun
    cases hstep
    exact h.next hp.2 hp.1
  obtain ⟨records, hm⟩ := hfaithful.mirrored
  exact ⟨hfaithful.contents, hm.open⟩

/-- A vote, an entry, and the entry once more. -/
def retriedOps : List Op :=
  [.saveHardState { term := 1, votedFor := 2 }, .append 1 { term := 1 }, .append 1 { term := 1 }]

/-- The first attempt at the entry fails. -/
theorem failed_call_invisible_retried : ∃ s,
    Runs.run Session.step (Session.start (· == 2)) retriedOps = some s ∧
    s.succeeded = [.saveHardState { term := 1, votedFor := 2 }, .append 1 { term := 1 }] ∧
    s.store.toContents = (run s.succeeded fresh).toContents ∧
    ∃ s', openStore (⟨s.store.log.device.medium.durable, []⟩ : Wal.MemoryDevice) =
        .ok s' s'.log.device ∧ s'.toContents = s.store.toContents := by
  refine ⟨_, rfl, rfl, failed_call_invisible (show ∀ op ∈ retriedOps, op.InRange by decide) ?_ rfl⟩
  refine ⟨rfl, fun _ hfirst => ?_⟩
  cases hfirst
  refine ⟨rfl, fun _ hsecond => ?_⟩
  cases hsecond
  exact ⟨rfl, fun _ _ => trivial⟩

/-! ## A failed sync -/

/-- Opening the bytes of some records is replaying them. -/
theorem openStore_image (records : List Entry) :
    openStore (⟨Wal.image 1 records, []⟩ : Wal.MemoryDevice) =
      match records.foldlM replay {} with
      | .error e => .error e ⟨Wal.image 1 records, []⟩
      | .ok c => .ok { c with log := ⟨⟨Wal.image 1 records, []⟩,
          BitVec.ofNat 64 (records.length + 1)⟩ } ⟨Wal.image 1 records, []⟩ := by
  have hlog : Wal.openLog (⟨Wal.image 1 records ++ [], []⟩ : Wal.MemoryDevice) = _ :=
    Wal.openLog_memory records (show ([] : List UInt8).length < _ by decide)
  rw [List.append_nil] at hlog
  have hfold := foldlM_numbered 1 records {}
  unfold openStore
  rw [hlog]
  cases hrecords : records.foldlM replay {} with
  | error e =>
    rw [hrecords] at hfold
    simp only [hfold]
  | ok c =>
    rw [hrecords] at hfold
    simp only [hfold]

/-- Two calls, the first of which fails with its sync. -/
def afterFailedSync (failed op : Op) : Session := ((Session.start (· == 1)).next failed).next op

/-- The store between the two calls. -/
def betweenCalls (record : Entry) : Store Failing :=
  { log := recorded (Session.start (· == 1)).store.log ⟨[], [] ++ Wal.encode ⟨1, record⟩⟩ }

/-- The sync of the second call makes both records durable. -/
theorem afterFailedSync_durable {failed op : Op} {record record' : Entry} {c c' : Contents}
    (hfailed : failed.plan {} = .ok (record, c)) (hop : op.plan {} = .ok (record', c')) :
    (afterFailedSync failed op).store.log.device.medium.durable =
      Wal.image 1 [record, record'] := by
  have hempty : Wal.Represents ⟨{}, 1⟩ ⟨[], []⟩ := ⟨rfl, rfl, rfl⟩
  refine Eq.trans ?_ ((hempty.stage record).stage record').sync.durable
  have hfirst : failed.exec (Session.start (· == 1)).store =
      .error (.wal .device) (betweenCalls record) := by
    rw [exec_eq, show failed.plan (Session.start (· == 1)).store.toContents = _ from hfailed]
    rfl
  have hnext : afterFailedSync failed op = Session.next ⟨betweenCalls record, []⟩ op := by
    simp only [afterFailedSync, Session.next, hfirst]
    rfl
  rw [hnext]
  unfold Session.next
  rw [exec_eq, show op.plan (betweenCalls record).toContents = _ from hop]
  rfl

/-- The second call returns without an error, and makes the record of the failed one durable. -/
theorem failed_call_reappears :
    (∃ failed op : Op, failed.InRange ∧ op.InRange ∧
      (afterFailedSync failed op).succeeded = [op] ∧
      ∃ d, openStore (⟨(afterFailedSync failed op).store.log.device.medium.durable, []⟩ :
        Wal.MemoryDevice) = .error .hardStateRegression d) ∧
    ∃ failed op : Op, failed.InRange ∧ op.InRange ∧
      (afterFailedSync failed op).succeeded = [op] ∧
      ∃ s d, openStore (⟨(afterFailedSync failed op).store.log.device.medium.durable, []⟩ :
        Wal.MemoryDevice) = .ok s d ∧ s.hard ≠ (afterFailedSync failed op).store.hard := by
  refine ⟨⟨.saveHardState { term := 2 }, .saveHardState { term := 1 }, by decide, by decide, rfl,
    ?_⟩, .saveHardState { term := 1 }, .append 1 { term := 1 }, by decide, by decide, rfl, ?_⟩
  · rw [afterFailedSync_durable rfl rfl, openStore_image]
    exact ⟨_, rfl⟩
  · rw [afterFailedSync_durable rfl rfl, openStore_image]
    exact ⟨_, _, rfl, by decide⟩

end Promtact.Storage.RaftWal
