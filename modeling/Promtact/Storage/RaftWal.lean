import Promtact.Raft.Types
import Promtact.Storage.Wal

/-!
# The stable store over the log

`raftwal` keeps the hard state and the Raft log in one stream of records. A record
with index zero is a hard state, two reserved indexes mark compactions and resets,
and every other record is a log entry that replaces everything from its index on.
Opening a store replays the records with the rules of the live store.

`Contents` is what a store holds in memory. Each operation checks its arguments,
appends one record, and then changes the contents (`Op.plan`); replaying that
record makes the same change (`replay_plan`). So a store that is opened after a
crash has the contents of the live store, with or without the operation that the
crash interrupted (`replay_equals_live`).
-/

namespace Promtact.Storage.RaftWal

open Promtact.Raft (Word HardState EntryKind CommandOp)

/-! ## Records -/

def hardStateIndex : Word := 0

def compactIndex : Word := BitVec.allOnes 64

def resetIndex : Word := BitVec.allOnes 64 - 1

def kindCode : EntryKind → UInt8
  | .normal => 0
  | .jointConfig => 1
  | .finalConfig => 2
  | .noop => 3
  | .other code => UInt8.ofNat (code + 4)

def kindOf (code : UInt8) : EntryKind :=
  match code.toNat with
  | 0 => .normal
  | 1 => .jointConfig
  | 2 => .finalConfig
  | 3 => .noop
  | n + 4 => .other (Fin.ofNat 252 n)

def operationCode : CommandOp → UInt8
  | .legacy => 0
  | .put => 1
  | .delete => 2
  | .other code => UInt8.ofNat (code + 3)

def operationOf (code : UInt8) : CommandOp :=
  match code.toNat with
  | 0 => .legacy
  | 1 => .put
  | 2 => .delete
  | n + 3 => .other (Fin.ofNat 253 n)

theorem kindOf_kindCode (kind : EntryKind) : kindOf (kindCode kind) = kind := by
  cases kind with
  | other code =>
    have hcode : (UInt8.ofNat (code + 4)).toNat = code + 4 :=
      UInt8.toNat_ofNat_of_lt (by have := code.isLt; simp [UInt8.size]; omega)
    simp only [kindOf, kindCode, hcode, Fin.ofNat_val_eq_self]
  | _ => rfl

theorem operationOf_operationCode (operation : CommandOp) :
    operationOf (operationCode operation) = operation := by
  cases operation with
  | other code =>
    have hcode : (UInt8.ofNat (code + 3)).toNat = code + 3 :=
      UInt8.toNat_ofNat_of_lt (by have := code.isLt; simp [UInt8.size]; omega)
    simp only [operationOf, operationCode, hcode, Fin.ofNat_val_eq_self]
  | _ => rfl

theorem toNat_ofNat_of_lt {n : Nat} (hn : n < 2 ^ 64) : (BitVec.ofNat 64 n).toNat = n := by
  rw [BitVec.toNat_ofNat, Nat.mod_eq_of_lt hn]

/-- The record of a log entry. -/
def entryRecord (index : Nat) (entry : Raft.Entry) : Entry where
  index := BitVec.ofNat 64 index
  term := BitVec.ofNat 64 entry.term
  command := entry.command
  kind := kindCode entry.kind
  oldVoters := entry.oldVoters
  newVoters := entry.newVoters
  operation := operationCode entry.operation
  clientID := entry.clientID
  requestID := entry.requestID
  key := entry.key
  value := entry.value

/-- The log entry of a record. -/
def recordEntry (e : Entry) : Raft.Entry where
  term := e.term.toNat
  command := e.command
  kind := kindOf e.kind
  oldVoters := e.oldVoters
  newVoters := e.newVoters
  operation := operationOf e.operation
  clientID := e.clientID
  requestID := e.requestID
  key := e.key
  value := e.value

theorem recordEntry_entryRecord {index : Nat} {entry : Raft.Entry} (ht : entry.term < 2 ^ 64) :
    recordEntry (entryRecord index entry) = entry := by
  simp only [recordEntry, entryRecord, kindOf_kindCode, operationOf_operationCode,
    toNat_ofNat_of_lt ht]

/-! ## The store -/

inductive Error
  | wal (e : Wal.Error)
  | resetRegression (index : Nat)
  | invalidCompaction (index : Nat)
  | hardStateRegression
  | indexGap (index : Nat)
  | invalidIndex (index : Nat)
  deriving DecidableEq, Repr

def Error.text : Error → String
  | .wal e => e.text
  | .resetRegression index => s!"raftwal: reset index regression {index}"
  | .invalidCompaction index => s!"raftwal: invalid compaction index {index}"
  | .hardStateRegression => "raftwal: hard-state regression"
  | .indexGap index => s!"raftwal: log index gap at {index}"
  | .invalidIndex index => s!"raftwal: invalid log index {index}"

/-- What a store holds in memory. The data starts with the entry at the base. -/
structure Contents where
  hard : HardState := {}
  base : Nat := 0
  data : List Raft.Entry := [{}]
  deriving DecidableEq

structure Store (δ : Type) extends Contents where
  log : Wal.Log δ

abbrev StoreM (δ : Type) := EStateM Error (Store δ)

/-- A hard state that must not follow the one at hand. -/
def regresses (old new : HardState) : Bool :=
  new.term < old.term || new.commit < old.commit ||
    (new.term = old.term && old.votedFor ≠ 0 && new.votedFor ≠ old.votedFor)

namespace Contents

def term (c : Contents) (index : Nat) : Option Nat :=
  if index < c.base ∨ index > c.base + c.data.length - 1 then none
  else (c.data[index - c.base]?).map (·.term)

def saveHardState (c : Contents) (hard : HardState) : Contents := { c with hard := hard }

/-- Storing at an index replaces everything from that index on. -/
def append (c : Contents) (index : Nat) (entry : Raft.Entry) : Contents :=
  { c with data := c.data.take (index - c.base) ++ [entry] }

def resetBase (c : Contents) (index term : Nat) : Contents :=
  { c with base := index, data := [{ term := term }] }

def compactLog (c : Contents) (index : Nat) : Contents :=
  { c with base := index, data := c.data.drop (index - c.base) }

end Contents

/-- One record of the replay. -/
def replay (c : Contents) (e : Entry) : Except Error Contents :=
  if e.index = resetIndex then
    if e.term.toNat < c.base then throw (.resetRegression e.term.toNat)
    else return c.resetBase e.term.toNat e.command.toNat
  else if e.index = compactIndex then
    if e.term.toNat < c.base ∨ e.term.toNat > c.base + c.data.length - 1 then
      throw (.invalidCompaction e.term.toNat)
    else return c.compactLog e.term.toNat
  else if e.index = hardStateIndex then
    let hard : HardState := {
      term := e.term.toNat, votedFor := e.command.toNat % 2 ^ 32, commit := e.oldVoters.toNat }
    if regresses c.hard hard then throw .hardStateRegression else return c.saveHardState hard
  else if e.index.toNat ≤ c.base then return c
  else if e.index.toNat - c.base > c.data.length then throw (.indexGap e.index.toNat)
  else return c.append e.index.toNat (recordEntry e)

variable {δ : Type} [Wal.Device δ]

/-- Opening a store over a device (`Open`). -/
def openStore : EStateM Error δ (Store δ) := fun d =>
  match Wal.openLog d with
  | .error e d' => .error (.wal e) d'
  | .ok (log, records) d' =>
    match records.foldlM (fun c record => replay c record.entry) ({} : Contents) with
    | .error e => .error e d'
    | .ok c => .ok { c with log := log } d'

def onLog (f : Wal.LogM δ Unit) : StoreM δ Unit := fun s =>
  match f s.log with
  | .ok _ log => .ok () { s with log := log }
  | .error e log => .error (.wal e) { s with log := log }

/-- Appends one record and makes it durable. -/
def appendRecord (entry : Entry) : StoreM δ Unit := do
  onLog (Wal.append Wal.background [entry])
  onLog (Wal.sync Wal.background)

def onContents (f : Contents → Contents) : StoreM δ Unit :=
  modify fun s => { s with toContents := f s.toContents }

def saveHardState (hard : HardState) : StoreM δ Unit := do
  let s ← get
  if regresses s.hard hard then throw .hardStateRegression
  appendRecord {
    index := hardStateIndex, term := BitVec.ofNat 64 hard.term
    command := BitVec.ofNat 64 hard.votedFor, oldVoters := BitVec.ofNat 64 hard.commit }
  onContents (·.saveHardState hard)

def append (index : Nat) (entry : Raft.Entry) : StoreM δ Unit := do
  let s ← get
  if index ≤ s.base ∨ index > s.base + s.data.length then throw (.invalidIndex index)
  appendRecord (entryRecord index entry)
  onContents (·.append index entry)

/-- A snapshot base without a matching entry discards the whole log. -/
def resetBase (index term : Nat) : StoreM δ Unit := do
  let s ← get
  if index < s.base then throw (.resetRegression index)
  appendRecord {
    index := resetIndex, term := BitVec.ofNat 64 index, command := BitVec.ofNat 64 term }
  onContents (·.resetBase index term)

/-- The fence is durable before the covered entries go. -/
def compactLog (index : Nat) : StoreM δ Unit := do
  let s ← get
  if index ≤ s.base ∨ index > s.base + s.data.length - 1 then throw (.invalidCompaction index)
  let term := ((s.data[index - s.base]?).map (·.term)).getD 0
  appendRecord {
    index := compactIndex, term := BitVec.ofNat 64 index, command := BitVec.ofNat 64 term }
  onContents (·.compactLog index)

/-! ## Operations -/

inductive Op
  | saveHardState (hard : HardState)
  | append (index : Nat) (entry : Raft.Entry)
  | resetBase (index term : Nat)
  | compactLog (index : Nat)
  deriving DecidableEq

namespace Op

def exec : Op → StoreM δ Unit
  | .saveHardState hard => RaftWal.saveHardState hard
  | .append index entry => RaftWal.append index entry
  | .resetBase index term => RaftWal.resetBase index term
  | .compactLog index => RaftWal.compactLog index

/-- The arguments are values of their Go types, and log indexes are below the two
reserved ones. -/
def InRange : Op → Prop
  | .saveHardState hard => hard.term < 2 ^ 64 ∧ hard.votedFor < 2 ^ 32 ∧ hard.commit < 2 ^ 64
  | .append index entry => index < 2 ^ 64 - 2 ∧ entry.term < 2 ^ 64
  | .resetBase index term => index < 2 ^ 64 - 2 ∧ term < 2 ^ 64
  | .compactLog index => index < 2 ^ 64 - 2

instance (op : Op) : Decidable op.InRange := by
  unfold InRange
  split <;> infer_instance

/-- The record that an operation appends, and the contents behind it. -/
def plan (c : Contents) : Op → Except Error (Entry × Contents)
  | .saveHardState hard =>
    if regresses c.hard hard then throw .hardStateRegression
    else return ({
      index := hardStateIndex, term := BitVec.ofNat 64 hard.term
      command := BitVec.ofNat 64 hard.votedFor, oldVoters := BitVec.ofNat 64 hard.commit },
      c.saveHardState hard)
  | .append index entry =>
    if index ≤ c.base ∨ index > c.base + c.data.length then throw (.invalidIndex index)
    else return (entryRecord index entry, c.append index entry)
  | .resetBase index term =>
    if index < c.base then throw (.resetRegression index)
    else return ({
      index := resetIndex, term := BitVec.ofNat 64 index, command := BitVec.ofNat 64 term },
      c.resetBase index term)
  | .compactLog index =>
    if index ≤ c.base ∨ index > c.base + c.data.length - 1 then throw (.invalidCompaction index)
    else return ({
      index := compactIndex, term := BitVec.ofNat 64 index
      command := BitVec.ofNat 64 (((c.data[index - c.base]?).map (·.term)).getD 0) },
      c.compactLog index)

end Op

section Replay

variable {c c' : Contents} {e : Entry}

theorem replay_hardState (hi : e.index = hardStateIndex) {hard : HardState}
    (hterm : e.term.toNat = hard.term) (hvote : e.command.toNat % 2 ^ 32 = hard.votedFor)
    (hcommit : e.oldVoters.toNat = hard.commit) (hok : regresses c.hard hard = false) :
    replay c e = .ok (c.saveHardState hard) := by
  unfold replay
  rw [if_neg (by rw [hi]; decide), if_neg (by rw [hi]; decide), if_pos hi]
  simp only [hterm, hvote, hcommit, hok]
  rfl

theorem replay_resetBase (hi : e.index = resetIndex) (hok : ¬ e.term.toNat < c.base) :
    replay c e = .ok (c.resetBase e.term.toNat e.command.toNat) := by
  unfold replay
  rw [if_pos hi, if_neg hok]
  rfl

theorem replay_compactLog (hi : e.index = compactIndex)
    (hok : ¬ (e.term.toNat < c.base ∨ e.term.toNat > c.base + c.data.length - 1)) :
    replay c e = .ok (c.compactLog e.term.toNat) := by
  unfold replay
  rw [if_neg (by rw [hi]; decide), if_pos hi, if_neg hok]
  rfl

theorem replay_entry (hlo : c.base < e.index.toNat) (hhi : e.index.toNat < 2 ^ 64 - 2)
    (hok : ¬ e.index.toNat - c.base > c.data.length) :
    replay c e = .ok (c.append e.index.toNat (recordEntry e)) := by
  have hreset : e.index ≠ resetIndex := by
    intro hi
    rw [hi] at hhi
    exact absurd hhi (by decide)
  have hcompact : e.index ≠ compactIndex := by
    intro hi
    rw [hi] at hhi
    exact absurd hhi (by decide)
  have hhard : e.index ≠ hardStateIndex := by
    intro hi
    rw [hi] at hlo
    exact absurd hlo (Nat.not_lt_zero _)
  unfold replay
  rw [if_neg hreset, if_neg hcompact, if_neg hhard, if_neg (by omega), if_neg hok]
  rfl

/-- Replaying the record of an operation does what the operation did. -/
theorem replay_plan {op : Op} (hop : op.InRange) (hplan : op.plan c = .ok (e, c')) :
    replay c e = .ok c' := by
  cases op with
  | saveHardState hard =>
    obtain ⟨hterm, hvote, hcommit⟩ := hop
    simp only [Op.plan] at hplan
    split at hplan
    · cases hplan
    · rename_i hok
      cases hplan
      refine replay_hardState rfl (toNat_ofNat_of_lt hterm) ?_ (toNat_ofNat_of_lt hcommit)
        (by simpa using hok)
      rw [toNat_ofNat_of_lt (by omega), Nat.mod_eq_of_lt hvote]
  | append index entry =>
    obtain ⟨hindex, hterm⟩ := hop
    simp only [Op.plan] at hplan
    split at hplan
    · cases hplan
    · cases hplan
      have hi : (entryRecord index entry).index.toNat = index := toNat_ofNat_of_lt (by omega)
      rw [replay_entry (by omega) (by omega) (by omega), hi, recordEntry_entryRecord hterm]
  | resetBase index term =>
    obtain ⟨hindex, hterm⟩ := hop
    simp only [Op.plan] at hplan
    split at hplan
    · cases hplan
    · cases hplan
      have hi := toNat_ofNat_of_lt (n := index) (by omega)
      rw [replay_resetBase rfl (by rwa [hi]), hi, toNat_ofNat_of_lt hterm]
  | compactLog index =>
    replace hop : index < 2 ^ 64 - 2 := hop
    simp only [Op.plan] at hplan
    split at hplan
    · cases hplan
    · cases hplan
      have hi := toNat_ofNat_of_lt (n := index) (by omega)
      rw [replay_compactLog rfl (by rw [hi]; omega), hi]

end Replay

/-! ## The live store -/

/-- A medium that loses power while it is asked to sync. -/
structure Dying where
  medium : Wal.MemoryDevice

instance : Wal.Device Dying where
  append p d := (none, ⟨(Wal.Device.append p d.medium).2⟩)
  sync d := (some .device, d)
  durableBytes d := (d.medium.durable, d)
  truncateDurable size d :=
    ((Wal.Device.truncateDurable size d.medium).1, ⟨(Wal.Device.truncateDurable size d.medium).2⟩)

/-- The medium when the power goes during an operation. -/
def Op.interrupted (op : Op) (s : Store Wal.MemoryDevice) : Wal.MemoryDevice :=
  match op.exec ({ s with log := ⟨⟨s.log.device⟩, s.log.nextSeq⟩ } : Store Dying) with
  | .ok _ s' => s'.log.device.medium
  | .error _ s' => s'.log.device.medium

/-- The store after a number of calls, whether they are accepted or not. -/
def run : List Op → Store Wal.MemoryDevice → Store Wal.MemoryDevice
  | [], s => s
  | op :: ops, s =>
    match op.exec s with
    | .ok _ s' => run ops s'
    | .error _ s' => run ops s'

/-- The device holds the records of the contents, and nothing is pending. -/
structure Reflects (s : Store Wal.MemoryDevice) (records : List Entry) : Prop where
  represents : Wal.Represents s.log ⟨records, []⟩
  replays : records.foldlM replay {} = .ok s.toContents

/-- The log after one more durable record. -/
def written (log : Wal.Log Wal.MemoryDevice) (record : Entry) : Wal.Log Wal.MemoryDevice :=
  ⟨⟨log.device.durable ++ (log.device.pending ++ Wal.encode ⟨log.nextSeq, record⟩), []⟩,
    log.nextSeq + 1⟩

section Live

variable {s : Store Wal.MemoryDevice} {records : List Entry} {op : Op}

omit [Wal.Device δ] in
theorem onLog_contents {f : Wal.LogM δ Unit} {s s' : Store δ} (h : onLog f s = .ok () s') :
    s'.toContents = s.toContents := by
  unfold onLog at h
  split at h
  · cases h
    rfl
  · cases h

theorem appendRecord_contents {record : Entry} {s s' : Store δ}
    (h : appendRecord record s = .ok () s') : s'.toContents = s.toContents := by
  simp only [appendRecord, bind, EStateM.bind] at h
  split at h
  · rename_i hstage
    rw [onLog_contents h, onLog_contents hstage]
  · cases h

/-- A checked operation is its record, and then its change of the contents. -/
theorem exec_checked {s : Store δ} {p : Prop} [Decidable p] {e : Error} {record : Entry}
    {f : Contents → Contents} :
    (do
      if p then throw e
      appendRecord record
      onContents f : StoreM δ Unit) s =
    if p then .error e s
    else
      match appendRecord record s with
      | .ok _ s' => .ok () { f s.toContents with log := s'.log }
      | .error e s' => .error e s' := by
  by_cases hp : p
  · rw [if_pos hp, if_pos hp]
    rfl
  · rw [if_neg hp, if_neg hp]
    show EStateM.bind (appendRecord record) _ s = _
    unfold EStateM.bind
    split
    · rename_i hrun
      rw [hrun]
      show EStateM.Result.ok () _ = EStateM.Result.ok () _
      simp only [appendRecord_contents hrun]
    · rename_i hrun
      rw [hrun]

/-- What an operation does, by its plan. -/
theorem exec_eq (op : Op) (s : Store δ) : op.exec s =
    match op.plan s.toContents with
    | .error e => .error e s
    | .ok (record, c) =>
      match appendRecord record s with
      | .ok _ s' => .ok () { c with log := s'.log }
      | .error e s' => .error e s' := by
  cases op with
  | saveHardState hard =>
    refine exec_checked.trans ?_
    simp only [Op.plan]
    split <;> rfl
  | append index entry =>
    refine exec_checked.trans ?_
    simp only [Op.plan]
    split <;> rfl
  | resetBase index term =>
    refine exec_checked.trans ?_
    simp only [Op.plan]
    split <;> rfl
  | compactLog index =>
    refine exec_checked.trans ?_
    simp only [Op.plan]
    split <;> rfl

/-- On a medium that works, an operation is rejected without a trace or done. -/
theorem exec_memory (op : Op) (s : Store Wal.MemoryDevice) : op.exec s =
    match op.plan s.toContents with
    | .error e => .error e s
    | .ok (record, c) => .ok () { c with log := written s.log record } := by
  rw [exec_eq]
  split
  · rfl
  · rename_i record c _
    have happend : appendRecord record s = .ok () { s with log := written s.log record } := rfl
    rw [happend]

/-- When the power goes, the record of the operation is pending. -/
theorem interrupted_eq (op : Op) (s : Store Wal.MemoryDevice) : op.interrupted s =
    match op.plan s.toContents with
    | .error _ => s.log.device
    | .ok (record, _) => { s.log.device with
        pending := s.log.device.pending ++ Wal.encode ⟨s.log.nextSeq, record⟩ } := by
  unfold Op.interrupted
  rw [exec_eq]
  cases op.plan s.toContents with
  | error e => rfl
  | ok p => rfl

/-- The replay does not look at sequence numbers. -/
theorem foldlM_numbered (first : Nat) (records : List Entry) (c : Contents) :
    (Wal.numbered first records).foldlM (fun c record => replay c record.entry) c =
      records.foldlM replay c := by
  induction records generalizing first c with
  | nil => rfl
  | cons record records ih =>
    rw [Wal.numbered, List.foldlM_cons, List.foldlM_cons]
    simp only [ih]

/-- Opening what a crash left gives the live contents. -/
theorem Reflects.open (hr : Reflects s records) {tail : List UInt8}
    (htail : tail.length < Wal.recordSize) :
    ∃ s', openStore (⟨s.log.device.durable ++ tail, []⟩ : Wal.MemoryDevice) =
        .ok s' s'.log.device ∧ s'.toContents = s.toContents ∧ Reflects s' records := by
  have hfold : (Wal.numbered 1 records).foldlM (fun c record => replay c record.entry)
      ({} : Contents) = .ok s.toContents := by
    rw [foldlM_numbered, hr.replays]
  refine ⟨{ s with log := ⟨⟨Wal.image 1 records, []⟩, BitVec.ofNat 64 (records.length + 1)⟩ },
    ?_, rfl, { represents := { durable := rfl, pending := rfl, nextSeq := rfl }
               replays := hr.replays }⟩
  rw [hr.represents.durable]
  unfold openStore
  rw [Wal.openLog_memory records htail]
  simp only [hfold]

theorem written_represents {log : Wal.Log Wal.MemoryDevice}
    (hr : Wal.Represents log ⟨records, []⟩) (record : Entry) :
    Wal.Represents (written log record) ⟨records ++ [record], []⟩ := by
  have hstage := (hr.stage record).sync
  simp only [List.nil_append] at hstage
  exact hstage

theorem Reflects.exec (hr : Reflects s records) (hop : op.InRange) :
    (∃ e, op.exec s = .error e s ∧ op.interrupted s = s.log.device) ∨
    ∃ record s', op.exec s = .ok () s' ∧ Reflects s' (records ++ [record]) ∧
      s'.log.device = ⟨s.log.device.durable ++ Wal.encode ⟨s.log.nextSeq, record⟩, []⟩ ∧
      op.interrupted s = ⟨s.log.device.durable, Wal.encode ⟨s.log.nextSeq, record⟩⟩ := by
  rw [exec_memory, interrupted_eq]
  cases hplan : op.plan s.toContents with
  | error e => exact Or.inl ⟨e, rfl, rfl⟩
  | ok p =>
    obtain ⟨record, c⟩ := p
    have hpending : s.log.device.pending = [] := hr.represents.pending
    have hreplay := replay_plan hop hplan
    refine Or.inr ⟨record, _, rfl, ⟨written_represents hr.represents record, ?_⟩, ?_, ?_⟩
    · rw [List.foldlM_append, hr.replays]
      simp only [List.foldlM_cons, List.foldlM_nil, bind, Except.bind, hreplay, pure, Except.pure]
    · show (⟨s.log.device.durable ++ (s.log.device.pending ++
        Wal.encode ⟨s.log.nextSeq, record⟩), []⟩ : Wal.MemoryDevice) = _
      rw [hpending, List.nil_append]
    · show (⟨s.log.device.durable, s.log.device.pending ++
        Wal.encode ⟨s.log.nextSeq, record⟩⟩ : Wal.MemoryDevice) = _
      rw [hpending, List.nil_append]

theorem Reflects.run {ops : List Op} (hops : ∀ op ∈ ops, op.InRange) (hr : Reflects s records) :
    ∃ records', Reflects (RaftWal.run ops s) records' := by
  induction ops generalizing s records with
  | nil => exact ⟨records, hr⟩
  | cons op ops ih =>
    have hrest := fun op' hop' => hops op' (List.mem_cons_of_mem op hop')
    rcases hr.exec (hops op List.mem_cons_self) with ⟨e, hexec, _⟩ | ⟨record, s', hexec, hr', _⟩
    · simp only [RaftWal.run, hexec]
      exact ih hrest hr
    · simp only [RaftWal.run, hexec]
      exact ih hrest hr'

end Live

/-- A store on an empty medium. -/
def fresh : Store Wal.MemoryDevice := { log := ⟨{}, 1⟩ }

theorem fresh_reflects : openStore ({} : Wal.MemoryDevice) = .ok fresh {} ∧ Reflects fresh [] :=
  ⟨rfl, { represents := { durable := rfl, pending := rfl, nextSeq := rfl }, replays := rfl }⟩

/-- A rejected call leaves no trace. A crash during a call leaves a medium that opens
with the contents of the live store, or with the interrupted call done in full. -/
theorem replay_equals_live {ops : List Op} {op : Op} (hops : ∀ op ∈ ops, op.InRange)
    (hop : op.InRange) :
    (∀ e s', op.exec (run ops fresh) = .error e s' → s' = run ops fresh) ∧
    ∀ torn medium, (op.interrupted (run ops fresh)).crash torn = .ok medium →
      ∃ s', openStore medium = .ok s' s'.log.device ∧
        (s'.toContents = (run ops fresh).toContents ∨
          ∃ s'', op.exec (run ops fresh) = .ok () s'' ∧ s'.toContents = s''.toContents) := by
  obtain ⟨records, hr⟩ := fresh_reflects.2.run hops
  obtain ⟨s, hs⟩ : ∃ s, s = run ops fresh := ⟨_, rfl⟩
  rw [← hs] at hr ⊢
  have hpending : s.log.device.pending = [] := hr.represents.pending
  rcases hr.exec hop with ⟨e, hexec, hint⟩ | ⟨record, s', hexec, hr', hdevice, hint⟩
  · rw [hexec, hint]
    refine ⟨?_, fun torn medium hcrash => ?_⟩
    · rintro _ _ ⟨⟩
      rfl
    · rw [Wal.MemoryDevice.crash_ok hcrash, hpending, List.take_nil]
      obtain ⟨s', hopen, hsame, _⟩ := hr.open (show ([] : List UInt8).length < _ by decide)
      exact ⟨s', hopen, Or.inl hsame⟩
  · rw [hexec, hint]
    refine ⟨fun e s' hno => (nomatch hno), fun torn medium hcrash => ?_⟩
    have hmedium : medium = ⟨s.log.device.durable ++
        (Wal.encode ⟨s.log.nextSeq, record⟩).take torn.toNat, []⟩ :=
      Wal.MemoryDevice.crash_ok hcrash
    rw [hmedium]
    rcases Nat.lt_or_ge torn.toNat Wal.recordSize with hlt | hge
    · -- the record is torn
      obtain ⟨s₁, hopen, hsame, _⟩ := hr.open
        (Nat.lt_of_le_of_lt (List.length_take_le _ _) hlt)
      exact ⟨s₁, hopen, Or.inl hsame⟩
    · -- the whole record reached the medium
      obtain ⟨s₁, hopen, hsame, _⟩ := hr'.open (show ([] : List UInt8).length < _ by decide)
      refine ⟨s₁, ?_, Or.inr ⟨s', rfl, hsame⟩⟩
      rw [List.take_of_length_le (by rw [Wal.length_encode]; exact hge)]
      rw [hdevice, List.append_nil] at hopen
      exact hopen

/-- A vote, two entries, an entry that leaves a gap and is rejected, an overwritten
entry, and a fence. -/
def fencedOps : List Op :=
  [.saveHardState { term := 1, votedFor := 2 }, .append 1 { term := 1 }, .append 2 { term := 1 },
    .append 9 { term := 1 }, .append 2 { term := 2, command := 7 }, .compactLog 1]

theorem replay_equals_live_fencedOps : ∃ medium s',
    ((Op.resetBase 5 2).interrupted (run fencedOps fresh)).crash 40 = .ok medium ∧
    openStore medium = .ok s' s'.log.device ∧
    (s'.toContents = (run fencedOps fresh).toContents ∨
      ∃ s'', (Op.resetBase 5 2).exec (run fencedOps fresh) = .ok () s'' ∧
        s'.toContents = s''.toContents) := by
  obtain ⟨_, hopen⟩ := replay_equals_live
    (show ∀ op ∈ fencedOps, op.InRange by decide) (show Op.InRange (.resetBase 5 2) by decide)
  have hlen : 40 ≤ ((Op.resetBase 5 2).interrupted (run fencedOps fresh)).pending.length := by
    decide +kernel
  have hcrash := Wal.MemoryDevice.crash_eq (d := (Op.resetBase 5 2).interrupted (run fencedOps fresh))
    (show (0 : Int) ≤ 40 by decide) (by exact_mod_cast hlen)
  obtain ⟨s', hs', hcontents⟩ := hopen 40 _ hcrash
  exact ⟨_, s', hcrash, hs', hcontents⟩

end Promtact.Storage.RaftWal
