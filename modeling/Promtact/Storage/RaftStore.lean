import Promtact.Raft.Ledger
import Promtact.Raft.Recorder
import Promtact.Storage.RaftWal
import Promtact.Storage.Snapshot

/-!
# The store of a server

The write-ahead log and the snapshot file make up the persistence boundary of a
compacting node (`raftstore`). A snapshot is saved first and the log is cut behind
it, so a crash in between leaves a snapshot that is ahead of the log; opening the
store then cuts the log, provided that it reaches up to the snapshot.

`link` says that over a medium that works, this store is a ledger: `Ledger false`
refuses the same calls, does the same to what is durable, and opens in the same
cases with the same result.
-/

namespace Promtact.Storage.RaftStore

open Promtact.Raft (StoreError HardState Recovery Recorder Ledger Durable StoreCall Bond OpenLink)

/-! ## The store -/

inductive Error
  | snapshot (e : Snapshot.Error)
  | wal (e : RaftWal.Error)
  | baseExceedsSnapshot (base last : Nat)
  | snapshotExceedsLog (last : Nat)
  | baseMismatch (last base : Nat)
  | noDurableSnapshot (index : Nat)
  deriving DecidableEq, Repr

def Error.text : Error → StoreError
  | .snapshot e => e.text
  | .wal e => e.text
  | .baseExceedsSnapshot base last => s!"raftstore: WAL base {base} exceeds snapshot {last}"
  | .snapshotExceedsLog last => s!"raftstore: snapshot {last} exceeds WAL last index"
  | .baseMismatch last base => s!"raftstore: snapshot/WAL base mismatch {last} != {base}"
  | .noDurableSnapshot index => s!"raftstore: no durable snapshot for compaction index {index}"

structure Store (δ : Type) where
  wal : RaftWal.Store δ
  snapshot : Snapshot.Store := {}
  /-- The snapshot that was saved and that the log is not cut at yet. -/
  pending : Raft.Snapshot := {}

def imageOf (snapshot : Raft.Snapshot) : Snapshot.Image where
  lastIndex := BitVec.ofNat 64 snapshot.lastIndex
  lastTerm := BitVec.ofNat 64 snapshot.lastTerm
  state := snapshot.state
  oldVoters := snapshot.oldVoters
  newVoters := snapshot.newVoters

def ofImage (image : Snapshot.Image) : Raft.Snapshot where
  lastIndex := image.lastIndex.toNat
  lastTerm := image.lastTerm.toNat
  state := image.state
  oldVoters := image.oldVoters
  newVoters := image.newVoters

section Calls

variable {δ : Type} [Wal.Device δ]

/-- The operation that cuts a log at a snapshot: what follows stays when the log holds
the snapshot's last entry. -/
def fence (c : RaftWal.Contents) (index term : Nat) : RaftWal.Op :=
  if c.term index = some term then .compactLog index else .resetBase index term

def call (op : RaftWal.Op) (s : Store δ) : Option Error × Store δ :=
  match op.exec s.wal with
  | .ok _ wal => (none, { s with wal := wal })
  | .error e wal => (some (.wal e), { s with wal := wal })

def saveSnapshot (snapshot : Raft.Snapshot) (s : Store δ) : Option Error × Store δ :=
  match s.snapshot.save (imageOf snapshot) with
  | .error e => (some (.snapshot e), s)
  | .ok saved => (none, { s with snapshot := saved, pending := snapshot })

def compactLog (index : Nat) (s : Store δ) : Option Error × Store δ :=
  if s.pending.lastIndex ≠ index then (some (.noDurableSnapshot index), s)
  else
    match call (fence s.wal.toContents index s.pending.lastTerm) s with
    | (none, s) => (none, { s with pending := {} })
    | (some e, s) => (some e, s)

/-- Completes a compaction that a crash has cut off. -/
def complete (snapshot : Raft.Snapshot) (wal : RaftWal.Store δ) :
    Except Error (RaftWal.Store δ) :=
  if snapshot.lastIndex > wal.base then
    if snapshot.lastIndex > wal.base + wal.data.length - 1 then
      throw (.snapshotExceedsLog snapshot.lastIndex)
    else
      match (fence wal.toContents snapshot.lastIndex snapshot.lastTerm).exec wal with
      | .ok _ wal => return wal
      | .error e _ => throw (.wal e)
  else return wal

/-- What the log and the snapshot make up, once each of them is open. -/
def join (saved : Snapshot.Store) (snapshot : Raft.Snapshot) (wal : RaftWal.Store δ) :
    Except Error (Store δ × Recovery) :=
  if wal.base > snapshot.lastIndex then throw (.baseExceedsSnapshot wal.base snapshot.lastIndex)
  else
    match complete snapshot wal with
    | .error e => throw e
    | .ok wal =>
      if wal.base ≠ snapshot.lastIndex then throw (.baseMismatch snapshot.lastIndex wal.base)
      else return ({ wal := wal, snapshot := saved }, ⟨wal.hard, snapshot, wal.data.tail⟩)

/-- Opens the log on a device and the snapshot in a file. -/
def openStore (device : δ) (file : Option (List UInt8)) : Except Error (Store δ × Recovery) :=
  match Snapshot.openStore file with
  | .error e => throw (.snapshot e)
  | .ok (saved, image) =>
    match (RaftWal.openStore device : EStateM.Result _ _ _) with
    | .error e _ => throw (.wal e)
    | .ok wal _ => join saved (ofImage image) wal

def answer (r : Option Error × Store δ) : Option StoreError × Store δ := (r.1.map Error.text, r.2)

instance : Raft.StableStore (Store δ) where
  saveHardState hard s := answer (call (.saveHardState hard) s)
  append index entry s := answer (call (.append index entry) s)
  snapshots := some {
    saveSnapshot := fun snapshot s => answer (saveSnapshot snapshot s)
    compactLog := fun index s => answer (compactLog index s) }

end Calls

/-- What a crash leaves is opened. -/
instance : Raft.OpenStore (Store Wal.MemoryDevice) where
  reopen s := (openStore ({ durable := s.wal.log.device.durable } : Wal.MemoryDevice)
    s.snapshot.file).toOption

def fresh : Store Wal.MemoryDevice := { wal := RaftWal.fresh }

instance : Inhabited (Store Wal.MemoryDevice) := ⟨fresh⟩

/-! ## What the store holds -/

/-- The log as the write-ahead log keeps it. -/
def logOf (d : Durable) : RaftWal.Contents := ⟨d.hard, d.base, d.data⟩

/-- The bytes on the medium stand for the durable log. -/
structure LogHolds (wal : RaftWal.Store Wal.MemoryDevice) (d : Durable) : Prop where
  reflects : ∃ records, RaftWal.Reflects wal records
  contents : wal.toContents = logOf d
  nonempty : d.data ≠ []

/-- The bytes on the medium and in the file stand for the durable contents. -/
structure Holds (s : Store Wal.MemoryDevice) (d : Durable) : Prop extends LogHolds s.wal d where
  file : s.snapshot.Holds (imageOf d.snapshot)
  inRange : (StoreCall.saveSnapshot d.snapshot).InRange

theorem fresh_logHolds : LogHolds RaftWal.fresh {} where
  reflects := ⟨[], RaftWal.fresh_reflects.2⟩
  contents := rfl
  nonempty := List.cons_ne_nil _ _

theorem fresh_holds : Holds fresh {} where
  toLogHolds := fresh_logHolds
  file := Snapshot.fresh_holds
  inRange := by decide

theorem ofImage_imageOf {snapshot : Raft.Snapshot}
    (hin : (StoreCall.saveSnapshot snapshot).InRange) : ofImage (imageOf snapshot) = snapshot := by
  obtain ⟨hindex, hterm, _⟩ := hin
  simp only [ofImage, imageOf, RaftWal.toNat_ofNat_of_lt hterm,
    RaftWal.toNat_ofNat_of_lt (show snapshot.lastIndex < 2 ^ 64 by omega)]

variable {s : Store Wal.MemoryDevice} {wal : RaftWal.Store Wal.MemoryDevice} {d : Durable}
variable {op : RaftWal.Op}

/-! ## The calls of a ledger -/

/-- The store holds what the ledger has. -/
def Stands (s : Store Wal.MemoryDevice) (l : Ledger false) : Prop := Holds s l.content

/-- The ledger refuses what the plan refuses, and has the planned effect. -/
def Planned (op : RaftWal.Op) (refuse : Durable → Bool) (effect : Durable → Durable) (d : Durable) :
    Prop :=
  (∃ e, op.plan (logOf d) = .error e ∧ refuse d = true) ∨
    ∃ record, op.plan (logOf d) = .ok (record, logOf (effect d)) ∧ refuse d = false ∧
      (effect d).data ≠ []

/-- An operation of the log is refused without a trace, or done. -/
theorem LogHolds.exec {refuse : Durable → Bool} {effect : Durable → Durable}
    (hw : LogHolds wal d) (hop : op.InRange) (hplan : Planned op refuse effect d) :
    (refuse d = true ∧ ∃ e, op.exec wal = .error e wal) ∨
      (refuse d = false ∧ ∃ wal', op.exec wal = .ok () wal' ∧ LogHolds wal' (effect d)) := by
  obtain ⟨records, hr⟩ := hw.reflects
  have hexec := RaftWal.exec_memory op wal
  rw [hw.contents] at hexec
  rcases hplan with ⟨e, hplan, hrefuse⟩ | ⟨record, hplan, hrefuse, hne⟩
  · rw [hplan] at hexec
    exact Or.inl ⟨hrefuse, e, hexec⟩
  · rw [hplan] at hexec
    refine Or.inr ⟨hrefuse, _, hexec, { reflects := ?_, contents := rfl, nonempty := hne }⟩
    rcases hr.exec hop with ⟨e, hno, _⟩ | ⟨record', wal', hyes, hr', _⟩
    · rw [hexec] at hno
      cases hno
    · rw [hexec] at hyes
      cases hyes
      exact ⟨_, hr'⟩

theorem Holds.agree (op : RaftWal.Op) {refuse : Durable → Bool} {effect : Durable → Durable}
    (hs : Holds s d) (hop : op.InRange) (hplan : Planned op refuse effect d)
    (hsnap : (effect d).snapshot = d.snapshot) :
    Recorder.Agree Stands Stands (answer (RaftStore.call op s))
      (Ledger.call refuse effect ⟨d⟩) := by
  unfold Ledger.call RaftStore.call
  rcases hs.exec hop hplan with ⟨hrefuse, e, hexec⟩ | ⟨hrefuse, wal, hexec, hw⟩
  · rw [hexec, if_pos hrefuse]
    exact Or.inr ⟨by simp [answer], by simp, hs⟩
  · rw [hexec, if_neg (by simp [hrefuse])]
    refine Or.inl ⟨rfl, rfl, ?_⟩
    exact {
      toLogHolds := hw
      file := by rw [hsnap]; exact hs.file
      inRange := by rw [hsnap]; exact hs.inRange }

theorem regresses_iff (old new : HardState) :
    RaftWal.regresses old new = true ↔ ¬ new.Follows old := by
  simp only [RaftWal.regresses, HardState.Follows, Bool.or_eq_true, Bool.and_eq_true,
    decide_eq_true_eq]
  omega

theorem planned_saveHardState (hw : LogHolds wal d) (hard : HardState) :
    Planned (.saveHardState hard) (fun d => !decide (hard.Follows d.hard)) (·.saveHardState hard)
      d := by
  by_cases hf : hard.Follows d.hard
  · refine Or.inr ⟨_, if_neg ?_, by simp [hf], hw.nonempty⟩
    exact fun hno => (regresses_iff _ _).mp hno hf
  · exact Or.inl ⟨_, if_pos ((regresses_iff _ _).mpr hf), by simp [hf]⟩

theorem planned_append (hw : LogHolds wal d) (index : Nat) (entry : Raft.Entry) :
    Planned (.append index entry) (Ledger.refusesAppend index) (·.append index entry) d := by
  have hpos := List.length_pos_iff.mpr hw.nonempty
  have hlast : d.lastIndex + 1 = d.base + d.data.length := by
    unfold Durable.lastIndex
    omega
  have hrefuse : Ledger.refusesAppend index d = true ↔
      index ≤ d.base ∨ index > d.base + d.data.length := by
    simp only [Ledger.refusesAppend, Bool.or_eq_true, decide_eq_true_eq, hlast]
  by_cases hno : index ≤ d.base ∨ index > d.base + d.data.length
  · exact Or.inl ⟨_, if_pos hno, hrefuse.mpr hno⟩
  · refine Or.inr ⟨_, if_neg hno, ?_, by simp [Durable.append]⟩
    exact Bool.eq_false_iff.mpr fun hyes => hno (hrefuse.mp hyes)

/-- The log holds the snapshot's last entry. -/
theorem planned_compactLog (hw : LogHolds wal d)
    (hheld : d.term d.snapshot.lastIndex = some d.snapshot.lastTerm) :
    Planned (.compactLog d.snapshot.lastIndex)
      (Ledger.refusesCompaction false d.snapshot.lastIndex) Durable.fence d := by
  have hpos := List.length_pos_iff.mpr hw.nonempty
  have hwithin : d.base ≤ d.snapshot.lastIndex ∧
      d.snapshot.lastIndex ≤ d.base + d.data.length - 1 := by
    unfold Durable.term Durable.lastIndex at hheld
    split at hheld
    · cases hheld
    · omega
  by_cases hno : d.snapshot.lastIndex ≤ d.base
  · refine Or.inl ⟨_, if_pos (Or.inl hno), ?_⟩
    have heq : d.snapshot.lastIndex = d.base := by omega
    simp [Ledger.refusesCompaction, ← heq, hheld]
  · have hfence : d.fence.data = d.data.drop (d.snapshot.lastIndex - d.base) := if_pos hheld
    have hlog : logOf d.fence = (logOf d).compactLog d.snapshot.lastIndex := by
      simp only [logOf, hfence]
      rfl
    have hin : ¬ (d.snapshot.lastIndex ≤ d.base ∨
        d.snapshot.lastIndex > d.base + d.data.length - 1) := by omega
    refine Or.inr ⟨_, by rw [hlog]; exact if_neg hin, ?_, ?_⟩
    · simp [Ledger.refusesCompaction]
      omega
    · rw [hfence, Ne, ← List.length_eq_zero_iff, List.length_drop]
      omega

/-- The log does not hold the snapshot's last entry. -/
theorem planned_resetBase (hheld : d.term d.snapshot.lastIndex ≠ some d.snapshot.lastTerm) :
    Planned (.resetBase d.snapshot.lastIndex d.snapshot.lastTerm)
      (Ledger.refusesCompaction false d.snapshot.lastIndex) Durable.fence d := by
  have hfence : d.fence.data = [{ term := d.snapshot.lastTerm }] := if_neg hheld
  by_cases hno : d.snapshot.lastIndex < d.base
  · exact Or.inl ⟨_, if_pos hno, by simp [Ledger.refusesCompaction, hno]⟩
  · have hlog : logOf d.fence =
        (logOf d).resetBase d.snapshot.lastIndex d.snapshot.lastTerm := by
      simp only [logOf, hfence]
      rfl
    refine Or.inr ⟨_, by rw [hlog]; exact if_neg hno, ?_, by simp [hfence]⟩
    simp [Ledger.refusesCompaction, hno, hheld]

/-- Cutting the log at the snapshot. -/
theorem planned_fence (hw : LogHolds wal d) :
    Planned (fence (logOf d) d.snapshot.lastIndex d.snapshot.lastTerm)
      (Ledger.refusesCompaction false d.snapshot.lastIndex) Durable.fence d := by
  by_cases hheld : d.term d.snapshot.lastIndex = some d.snapshot.lastTerm
  · rw [show fence (logOf d) d.snapshot.lastIndex d.snapshot.lastTerm = .compactLog _ from
      if_pos hheld]
    exact planned_compactLog hw hheld
  · rw [show fence (logOf d) d.snapshot.lastIndex d.snapshot.lastTerm = .resetBase _ _ from
      if_neg hheld]
    exact planned_resetBase hheld

theorem fence_inRange (hin : (StoreCall.saveSnapshot d.snapshot).InRange) :
    (fence (logOf d) d.snapshot.lastIndex d.snapshot.lastTerm).InRange := by
  unfold fence
  split
  · exact hin.1
  · exact ⟨hin.1, hin.2.1⟩

/-- The snapshot is saved and the log is not cut yet. -/
def Saved (snapshot : Raft.Snapshot) (s : Store Wal.MemoryDevice) (l : Ledger false) : Prop :=
  Holds s l.content ∧ s.pending = snapshot ∧ l.content.snapshot = snapshot

theorem Holds.saveSnapshot (hs : Holds s d) {snapshot : Raft.Snapshot}
    (hin : (StoreCall.saveSnapshot snapshot).InRange) :
    Recorder.Agree Stands (Saved snapshot)
      (answer (RaftStore.saveSnapshot snapshot s))
      (Ledger.call (snapshot.lastIndex < ·.snapshot.lastIndex) (·.saveSnapshot snapshot) ⟨d⟩) := by
  have hlt : (imageOf snapshot).lastIndex < s.snapshot.last ↔
      snapshot.lastIndex < d.snapshot.lastIndex := by
    obtain ⟨h₁, h₂⟩ := And.intro hin.1 hs.inRange.1
    rw [hs.file.last, BitVec.lt_def]
    show (BitVec.ofNat 64 _).toNat < (BitVec.ofNat 64 _).toNat ↔ _
    rw [RaftWal.toNat_ofNat_of_lt (by omega), RaftWal.toNat_ofNat_of_lt (by omega)]
  unfold RaftStore.saveSnapshot Ledger.call
  by_cases hno : snapshot.lastIndex < d.snapshot.lastIndex
  · rw [Snapshot.Store.save_error (hlt.mpr hno), if_pos (by simpa using hno)]
    exact Or.inr ⟨by simp [answer], by simp, hs⟩
  · rw [Snapshot.Store.save_ok (mt hlt.mp hno), if_neg (by simpa using hno)]
    have hlen := hin.2.2
    exact Or.inl ⟨rfl, rfl, { hs with
      file := Snapshot.saved_holds (by
        show 52 + snapshot.state.length < 2 ^ 64
        omega)
      inRange := hin }, rfl, rfl⟩

theorem Holds.compactLog (hs : Holds s d) (hpending : s.pending = d.snapshot) :
    Recorder.Agree Stands Stands (answer (RaftStore.compactLog d.snapshot.lastIndex s))
      (Ledger.call (Ledger.refusesCompaction false d.snapshot.lastIndex) Durable.fence ⟨d⟩) := by
  have hcall := hs.agree _ (fence_inRange hs.inRange) (planned_fence hs.toLogHolds) rfl
  unfold RaftStore.compactLog
  rw [if_neg (by simp [hpending]), hs.contents, hpending]
  generalize RaftStore.call (fence (logOf d) d.snapshot.lastIndex d.snapshot.lastTerm) s = r at hcall
  obtain ⟨err, s'⟩ := r
  cases err with
  | none =>
    rcases hcall with ⟨_, hnone, hs'⟩ | ⟨hno, _, _⟩
    · exact Or.inl ⟨rfl, hnone, { hs' with }⟩
    · exact absurd rfl hno
  | some e =>
    rcases hcall with ⟨hno, _, _⟩ | ⟨_, hsome, hs'⟩
    · cases hno
    · exact Or.inr ⟨by simp [answer], hsome, hs'⟩

/-! ## Opening -/

theorem LogHolds.log (hw : LogHolds wal d) : wal.base = d.base ∧ wal.hard = d.hard ∧
    wal.data = d.data ∧ wal.base + wal.data.length - 1 = d.lastIndex := by
  have hcontents := hw.contents
  have hbase : wal.base = d.base := congrArg RaftWal.Contents.base hcontents
  have hdata : wal.data = d.data := congrArg RaftWal.Contents.data hcontents
  refine ⟨hbase, congrArg RaftWal.Contents.hard hcontents, hdata, ?_⟩
  rw [hbase, hdata]
  rfl

theorem Holds.complete_error (hs : Holds s d) (hahead : d.base < d.snapshot.lastIndex)
    (hshort : d.lastIndex < d.snapshot.lastIndex) :
    complete d.snapshot s.wal = .error (.snapshotExceedsLog d.snapshot.lastIndex) := by
  unfold complete
  rw [hs.log.2.2.2, hs.log.1, if_pos hahead, if_pos hshort]
  rfl

/-- A log that reaches up to the snapshot is cut there. -/
theorem Holds.complete_ok (hs : Holds s d)
    (hreach : ¬ (d.base < d.snapshot.lastIndex ∧ d.lastIndex < d.snapshot.lastIndex)) :
    ∃ wal, complete d.snapshot s.wal = .ok wal ∧ Holds { s with wal := wal } d.settle := by
  unfold complete Durable.settle
  rw [hs.log.2.2.2, hs.log.1]
  by_cases hahead : d.snapshot.lastIndex > d.base
  · rw [if_pos hahead, if_pos hahead, if_neg (fun hno => hreach ⟨hahead, hno⟩), hs.contents]
    have hagree := hs.agree _ (fence_inRange hs.inRange) (planned_fence hs.toLogHolds) rfl
    have haccept : Ledger.refusesCompaction false d.snapshot.lastIndex d = false := by
      simp [Ledger.refusesCompaction]
      omega
    unfold Ledger.call RaftStore.call at hagree
    rw [if_neg (by simp [haccept])] at hagree
    cases hexec : (fence (logOf d) d.snapshot.lastIndex d.snapshot.lastTerm).exec s.wal with
    | ok _ wal =>
      rw [hexec] at hagree
      rcases hagree with ⟨_, _, hs'⟩ | ⟨hno, _, _⟩
      · exact ⟨wal, rfl, hs'⟩
      · exact absurd rfl hno
    | error e wal =>
      rw [hexec] at hagree
      rcases hagree with ⟨hno, _, _⟩ | ⟨_, hno, _⟩
      · cases hno
      · exact absurd rfl hno
  · rw [if_neg hahead, if_neg hahead]
    exact ⟨s.wal, rfl, hs⟩

/-- The log alone opens as it was. -/
theorem LogHolds.reopen (hw : LogHolds wal d) : ∃ wal',
    RaftWal.openStore ({ durable := wal.log.device.durable } : Wal.MemoryDevice) =
      .ok wal' wal'.log.device ∧ LogHolds wal' d := by
  obtain ⟨records, hr⟩ := hw.reflects
  obtain ⟨wal', hwal, hsame, hr'⟩ := hr.open (show ([] : List UInt8).length < _ by decide)
  rw [List.append_nil] at hwal
  exact ⟨wal', hwal, ⟨records, hr'⟩, hsame.trans hw.contents, hw.nonempty⟩

/-- Opening what a crash left. -/
theorem Holds.reopen (hs : Holds s d) :
    (Ledger.refusesOpen d = true ∧ Raft.OpenStore.reopen s = none) ∨
    (Ledger.refusesOpen d = false ∧ ∃ s', Raft.OpenStore.reopen s = some (s', d.settle.recovery) ∧
      Holds s' d.settle) := by
  obtain ⟨wal, hwal, hw⟩ := hs.toLogHolds.reopen
  have hopened : Holds { s with wal := wal, pending := {} } d := { hs with toLogHolds := hw }
  have hopen : openStore ({ durable := s.wal.log.device.durable } : Wal.MemoryDevice)
      s.snapshot.file = join s.snapshot d.snapshot wal := by
    have hfile : Snapshot.openStore s.snapshot.file = .ok (s.snapshot, imageOf d.snapshot) := hs.file
    unfold openStore
    simp only [hfile, hwal, ofImage_imageOf hs.inRange]
  show (Ledger.refusesOpen d = true ∧ (openStore _ _).toOption = none) ∨
    (_ ∧ ∃ s', (openStore _ _).toOption = _ ∧ _)
  rw [hopen]
  unfold join
  rw [show wal.base = d.base from hopened.log.1]
  by_cases hbehind : d.base > d.snapshot.lastIndex
  · refine Or.inl ⟨by simp [Ledger.refusesOpen, hbehind], ?_⟩
    rw [if_pos hbehind]
    rfl
  · rw [if_neg hbehind]
    by_cases hshort : d.base < d.snapshot.lastIndex ∧ d.lastIndex < d.snapshot.lastIndex
    · refine Or.inl ⟨by simp [Ledger.refusesOpen, hshort.1, hshort.2], ?_⟩
      rw [show complete d.snapshot wal = _ from hopened.complete_error hshort.1 hshort.2]
      rfl
    · obtain ⟨wal', hcomplete, hs'⟩ := hopened.complete_ok hshort
      refine Or.inr ⟨by simp [Ledger.refusesOpen, hbehind]; omega, _, ?_, hs'⟩
      rw [show complete d.snapshot wal = _ from hcomplete]
      have hbase : wal'.base = d.snapshot.lastIndex := by
        rw [show wal'.base = d.settle.base from hs'.log.1]
        unfold Durable.settle
        split
        · rfl
        · omega
      have hsnap : d.settle.snapshot = d.snapshot := by
        unfold Durable.settle
        split <;> rfl
      simp only [hbase, ne_eq, not_true_eq_false, if_false]
      rw [Durable.recovery, hsnap, ← hs'.log.2.1, ← hs'.log.2.2.1]
      rfl

/-! ## The link -/

/-- Over a medium that works, and as long as the calls are in range, the store is a
ledger. -/
def link : OpenLink (Recorder (Store Wal.MemoryDevice)) (Ledger false) where
  toBond := Recorder.bond Stands Saved
  saveHardState hard r l h := Recorder.answers (R := Stands) h.1 fun hin =>
    Holds.agree (.saveHardState hard) h.2 hin (planned_saveHardState h.2.toLogHolds hard) rfl
  append index entry r l h := Recorder.answers (R := Stands) h.1 fun hin =>
    Holds.agree (.append index entry) h.2 hin (planned_append h.2.toLogHolds index entry) rfl
  snapshots := by
    refine ⟨fun snapshot r l h => Recorder.answers (R := Saved snapshot) h.1 fun hin =>
      Holds.saveSnapshot h.2 hin, fun snapshot r l h => Recorder.answers (R := Stands) h.1
        fun hin => ?_, fun _ => Recorder.lost_record, fun _ => Recorder.lost_record⟩
    obtain ⟨_, hs, hpending, hsnap⟩ := h
    rw [← hsnap] at hpending ⊢
    exact hs.compactLog hpending
  lost_saveHardState _ := Recorder.lost_record
  lost_append _ _ := Recorder.lost_record
  tight := id
  reopen r l h := by
    obtain ⟨hin, hs⟩ := h
    rcases Holds.reopen hs with ⟨hrefuse, hopen⟩ | ⟨haccept, s', hopen, hs'⟩
    · have hr : Raft.OpenStore.reopen r = none := by
        show Option.map _ (Raft.OpenStore.reopen r.store) = none
        rw [hopen]
        rfl
      rw [hr, show Raft.OpenStore.reopen l = none from if_pos hrefuse]
      trivial
    · have hr : Raft.OpenStore.reopen r = some (⟨s', r.calls⟩, l.content.settle.recovery) :=
        Recorder.reopen_eq_some.mpr ⟨hopen, rfl⟩
      rw [hr, show Raft.OpenStore.reopen l = some (⟨l.content.settle⟩, l.content.settle.recovery) from
        if_neg (by simp [haccept])]
      exact ⟨rfl, hin, hs'⟩
  lost_reopen := Recorder.lost_reopen

end Promtact.Storage.RaftStore
